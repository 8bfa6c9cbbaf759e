import UniversalSetup.Archive.Layout

/-!
# Extra fields

An extra area is a run of fields, each an identifier, a length and as many bytes.
`parse_extra_fields` accepts an area exactly if it is such a run without a repeated or a refused
identifier, and if its ZIP64 field holds the values that the header left to it and nothing else.

The loop reads numbers at offsets. Here these reads are taken as what the bytes from an offset on
start with, so that a field is a beginning of the rest of the area.
-/

namespace Usk.Archive

open Json (Result demand bind_eq_ok demand_eq_ok)

variable {width fieldEnd offset : Nat} {needed : Bool} {message : String} {needs : Zip64Needs}
  {extra zip64 zip64' : Zip64Extra} {identifiers : List Nat}

/-! ## Numbers at an offset -/

theorem length_littleBytes : ∀ width n : Nat, (littleBytes width n).length = width
  | 0, _ => rfl
  | width + 1, n => by rw [littleBytes, List.length_cons, length_littleBytes]

/-- A reader of numbers of a width. -/
def ReadsLittle (read : Bytes → Nat → Result Nat) (width : Nat) : Prop :=
  ∀ data offset n, read data offset = .ok n ↔
    n < 256 ^ width ∧ ∃ rest, data.drop offset = littleBytes width n ++ rest

theorem ofNat_byte {n : Nat} {b : UInt8} (h : n % 256 = b.toNat) : UInt8.ofNat (n % 256) = b := by
  rw [h, UInt8.ofNat_toNat]

theorem readsLittle_little16 : ReadsLittle little16 2 := by
  intro data offset n
  rw [little16_eq_ok]
  constructor
  · rintro ⟨a, b, rest, hdrop, rfl⟩
    have ha := a.toNat_lt
    have hb := b.toNat_lt
    refine ⟨by omega, rest, ?_⟩
    rw [hdrop, littleBytes, littleBytes, ofNat_byte (b := a) (by omega),
      ofNat_byte (b := b) (by omega)]
    rfl
  · rintro ⟨hn, rest, hdrop⟩
    refine ⟨_, _, rest, hdrop, ?_⟩
    simp only [UInt8.toNat_ofNat']
    omega

theorem readsLittle_little32 : ReadsLittle little32 4 := by
  intro data offset n
  rw [little32_eq_ok]
  constructor
  · rintro ⟨a, b, c, d, rest, hdrop, rfl⟩
    have ha := a.toNat_lt
    have hb := b.toNat_lt
    have hc := c.toNat_lt
    have hd := d.toNat_lt
    refine ⟨by omega, rest, ?_⟩
    rw [hdrop, littleBytes, littleBytes, littleBytes, littleBytes, ofNat_byte (b := a) (by omega),
      ofNat_byte (b := b) (by omega), ofNat_byte (b := c) (by omega), ofNat_byte (b := d)
        (by omega)]
    rfl
  · rintro ⟨hn, rest, hdrop⟩
    refine ⟨_, _, _, _, rest, hdrop, ?_⟩
    simp only [UInt8.toNat_ofNat']
    omega

theorem littleBytes_add : ∀ width more n : Nat, littleBytes (width + more) n =
    littleBytes width n ++ littleBytes more (n / 256 ^ width)
  | 0, more, n => by simp [littleBytes]
  | width + 1, more, n => by
    rw [Nat.succ_add, littleBytes, littleBytes, littleBytes_add, List.cons_append,
      Nat.div_div_eq_div_mul, Nat.pow_succ']

theorem littleBytes_mod : ∀ width n : Nat, littleBytes width (n % 256 ^ width) = littleBytes width n
  | 0, _ => rfl
  | width + 1, n => by
    rw [littleBytes, littleBytes, Nat.pow_succ', Nat.mod_mul_right_mod, Nat.mod_mul_right_div_self,
      littleBytes_mod]

theorem readsLittle_little64 : ReadsLittle little64 8 := by
  intro data offset n
  simp only [little64, bind_eq_ok, readsLittle_little32 data]
  constructor
  · rintro ⟨low, ⟨hlow, rest, hdrop⟩, high, ⟨hhigh, rest', hdrop'⟩, heq⟩
    cases heq
    have hrest : rest = littleBytes 4 high ++ rest' := by
      rw [← hdrop', ← List.drop_drop, hdrop]
      exact (List.drop_left' (length_littleBytes 4 low)).symm
    refine ⟨by omega, rest', ?_⟩
    have hmod : (low + high * 2 ^ 32) % 256 ^ 4 = low := by omega
    have hdiv : (low + high * 2 ^ 32) / 256 ^ 4 = high := by omega
    rw [hdrop, hrest, littleBytes_add 4 4, ← littleBytes_mod 4 (low + high * 2 ^ 32), hmod, hdiv,
      List.append_assoc]
  · rintro ⟨hn, rest, hdrop⟩
    rw [littleBytes_add 4 4, List.append_assoc] at hdrop
    refine ⟨n % 256 ^ 4, ⟨Nat.mod_lt _ (by decide), littleBytes 4 (n / 256 ^ 4) ++ rest, ?_⟩,
      n / 256 ^ 4, ⟨by omega, rest, ?_⟩, ?_⟩
    · rw [hdrop, littleBytes_mod]
    · rw [← List.drop_drop, hdrop]
      exact List.drop_left' (length_littleBytes 4 n)
    · show Except.ok _ = Except.ok n
      congr 1
      omega

/-! ## The ZIP64 field -/

/-- A value of the ZIP64 field, if it is needed. -/
def neededBytes (needed : Bool) (width value : Nat) : Bytes :=
  if needed then littleBytes width value else []

/-- A needed value fits its place, one that is not needed is left at zero. -/
def NeededValue (needed : Bool) (width value : Nat) : Prop :=
  if needed then value < 256 ^ width else value = 0

/-- The values that are needed, in the order of the format. -/
def Zip64Extra.content (extra : Zip64Extra) (needs : Zip64Needs) : Bytes :=
  neededBytes needs.uncompressedSize 8 extra.uncompressedSize ++
    (neededBytes needs.compressedSize 8 extra.compressedSize ++
      (neededBytes needs.localHeaderOffset 8 extra.localHeaderOffset ++
        neededBytes needs.diskStart 4 extra.diskStart))

/-- A result in which just the needed values are set. -/
structure Zip64Extra.Fits (extra : Zip64Extra) (needs : Zip64Needs) : Prop where
  present : extra.present = needs.any
  uncompressedSize : NeededValue needs.uncompressedSize 8 extra.uncompressedSize
  compressedSize : NeededValue needs.compressedSize 8 extra.compressedSize
  localHeaderOffset : NeededValue needs.localHeaderOffset 8 extra.localHeaderOffset
  diskStart : NeededValue needs.diskStart 4 extra.diskStart

/-- The bytes from one offset to another. -/
def slice (data : Bytes) (start stop : Nat) : Bytes :=
  (data.drop start).take (stop - start)

theorem length_slice {data : Bytes} {start stop : Nat} (h : stop ≤ data.length) :
    (slice data start stop).length = stop - start := by
  rw [slice, List.length_take, List.length_drop]
  omega

/-- What a slice starts with, the data go on with at its offset. -/
theorem slice_eq_append {data first rest : Bytes} {start stop : Nat} (hstop : stop ≤ data.length)
    (hstart : start ≤ stop) : slice data start stop = first ++ rest ↔
      (∃ tail, data.drop start = first ++ tail) ∧ start + first.length ≤ stop ∧
        slice data (start + first.length) stop = rest := by
  constructor
  · intro h
    have hlength := congrArg List.length h
    rw [length_slice hstop, List.length_append] at hlength
    refine ⟨⟨rest ++ (data.drop start).drop (stop - start), ?_⟩, by omega, ?_⟩
    · rw [← List.append_assoc, ← h, slice, List.take_append_drop]
    · rw [slice, Nat.sub_add_eq, ← List.drop_drop, ← List.drop_take, ← slice, h, List.drop_left]
  · rintro ⟨⟨tail, htail⟩, hfirst, hrest⟩
    rw [slice, ← List.drop_drop, htail, List.drop_left] at hrest
    rw [slice, htail, List.take_append, List.take_of_length_le (by omega), ← hrest, Nat.sub_add_eq]

theorem takeField_eq_ok {read : Bytes → Nat → Result Nat} (hread : ReadsLittle read width)
    {data : Bytes} {taken : Nat × Nat} (hend : offset ≤ fieldEnd) :
    takeField read width data fieldEnd needed message offset = .ok taken ↔
      NeededValue needed width taken.1 ∧
      (∃ tail, data.drop offset = neededBytes needed width taken.1 ++ tail) ∧
      offset + (neededBytes needed width taken.1).length ≤ fieldEnd ∧
      taken.2 = offset + (neededBytes needed width taken.1).length := by
  obtain ⟨value, next⟩ := taken
  cases needed with
  | false =>
    simp only [takeField, NeededValue, neededBytes, Bool.false_eq_true, if_false, Except.ok.injEq,
      Prod.mk.injEq, List.nil_append, exists_eq', List.length_nil, Nat.add_zero, hend, true_and]
    exact ⟨fun h => ⟨h.1.symm, h.2.symm⟩, fun h => ⟨h.1.symm, h.2.symm⟩⟩
  | true =>
    simp only [takeField, NeededValue, neededBytes, if_true, bind_eq_ok, demand_eq_ok,
      decide_eq_true_eq, hread data, length_littleBytes, pure, Except.pure, Except.ok.injEq,
      Prod.mk.injEq]
    constructor
    · rintro ⟨-, hwidth, n, ⟨hn, tail, htail⟩, rfl, rfl⟩
      exact ⟨hn, ⟨tail, htail⟩, by omega, rfl⟩
    · rintro ⟨hn, ⟨tail, htail⟩, hnext, rfl⟩
      exact ⟨(), by omega, value, ⟨hn, tail, htail⟩, rfl, rfl⟩

theorem slice_eq {data first : Bytes} {start stop : Nat} (hstop : stop ≤ data.length)
    (hstart : start ≤ stop) : slice data start stop = first ↔
      (∃ tail, data.drop start = first ++ tail) ∧ start + first.length = stop := by
  have happend := @slice_eq_append data first [] start stop hstop hstart
  rw [List.append_nil] at happend
  rw [happend]
  refine and_congr_right fun _ => ⟨fun h => ?_, fun h => ⟨h.le, ?_⟩⟩
  · have hlength := congrArg List.length h.2
    rw [length_slice hstop, List.length_nil] at hlength
    omega
  · rw [h, slice, Nat.sub_self, List.take_zero]

/-- The ZIP64 field is read exactly if it consists of the needed values. -/
theorem zip64Field_eq_ok {data : Bytes} (hend : offset ≤ fieldEnd)
    (hlength : fieldEnd ≤ data.length) :
    zip64Field data needs offset fieldEnd = .ok extra ↔
      needs.any = true ∧ extra.Fits needs ∧ slice data offset fieldEnd = extra.content needs := by
  simp only [zip64Field, bind_eq_ok, demand_eq_ok, beq_iff_eq]
  constructor
  · rintro ⟨-, hany, size, h1, compressed, h2, header, h3, disk, h4, -, hstop, heq⟩
    cases heq
    obtain ⟨hv1, ht1, hle1, hn1⟩ := (takeField_eq_ok readsLittle_little64 hend).mp h1
    obtain ⟨hv2, ht2, hle2, hn2⟩ := (takeField_eq_ok readsLittle_little64 (hn1 ▸ hle1)).mp h2
    obtain ⟨hv3, ht3, hle3, hn3⟩ := (takeField_eq_ok readsLittle_little64 (hn2 ▸ hle2)).mp h3
    obtain ⟨hv4, ht4, hle4, hn4⟩ := (takeField_eq_ok readsLittle_little32 (hn3 ▸ hle3)).mp h4
    refine ⟨hany, ⟨hany.symm, hv1, hv2, hv3, hv4⟩, ?_⟩
    refine (slice_eq_append hlength hend).mpr ⟨ht1, hle1, ?_⟩
    rw [← hn1]
    refine (slice_eq_append hlength (hn1 ▸ hle1)).mpr ⟨ht2, hle2, ?_⟩
    rw [← hn2]
    refine (slice_eq_append hlength (hn2 ▸ hle2)).mpr ⟨ht3, hle3, ?_⟩
    rw [← hn3]
    exact (slice_eq hlength (hn3 ▸ hle3)).mpr ⟨ht4, hn4 ▸ hstop⟩
  · rintro ⟨hany, hfits, hslice⟩
    obtain ⟨ht1, hle1, hslice⟩ := (slice_eq_append hlength hend).mp hslice
    obtain ⟨ht2, hle2, hslice⟩ := (slice_eq_append hlength hle1).mp hslice
    obtain ⟨ht3, hle3, hslice⟩ := (slice_eq_append hlength hle2).mp hslice
    obtain ⟨ht4, hstop⟩ := (slice_eq hlength hle3).mp hslice
    refine ⟨(), hany, (extra.uncompressedSize, _), (takeField_eq_ok readsLittle_little64 hend).mpr
      ⟨hfits.uncompressedSize, ht1, hle1, rfl⟩, (extra.compressedSize, _),
      (takeField_eq_ok readsLittle_little64 hle1).mpr ⟨hfits.compressedSize, ht2, hle2, rfl⟩,
      (extra.localHeaderOffset, _), (takeField_eq_ok readsLittle_little64 hle2).mpr
      ⟨hfits.localHeaderOffset, ht3, hle3, rfl⟩, (extra.diskStart, _),
      (takeField_eq_ok readsLittle_little32 hle3).mpr ⟨hfits.diskStart, ht4, hstop.le, rfl⟩,
      (), hstop, ?_⟩
    have hpresent : extra.present = true := hfits.present.trans hany
    cases extra
    cases hpresent
    rfl

/-! ## The fields of an area -/

/-- A field of an extra area. -/
structure ExtraField where
  identifier : Nat
  content : Bytes
  identifier_lt : identifier < 2 ^ 16
  content_lt : content.length < 2 ^ 16

/-- The bytes of a field: identifier, length and content. -/
def ExtraField.bytes (field : ExtraField) : Bytes :=
  littleBytes 2 field.identifier ++ (littleBytes 2 field.content.length ++ field.content)

theorem ExtraField.length_bytes (field : ExtraField) :
    field.bytes.length = 4 + field.content.length := by
  rw [ExtraField.bytes, List.length_append, List.length_append, length_littleBytes,
    length_littleBytes]
  omega

/-- The content of a field stands behind its header. -/
theorem ExtraField.content_slice (field : ExtraField) {data rest : Bytes} {stop : Nat}
    (hstop : stop ≤ data.length) (hle : offset ≤ stop)
    (h : slice data offset stop = field.bytes ++ rest) :
    slice data (offset + 4) (offset + field.bytes.length) = field.content := by
  obtain ⟨⟨tail, htail⟩, hend, -⟩ := (slice_eq_append hstop hle).mp h
  have hlength := field.length_bytes
  refine (slice_eq (Nat.le_trans hend hstop) (by omega)).mpr ⟨⟨tail, ?_⟩, by omega⟩
  rw [← List.drop_drop, htail, ExtraField.bytes, List.append_assoc, List.append_assoc,
    ← List.append_assoc (littleBytes 2 _)]
  refine List.drop_left' ?_
  rw [List.length_append, length_littleBytes, length_littleBytes]

/-- One field is read, from its header on. -/
theorem extraField_eq_ok {data : Bytes} {identifier : Nat} (hend : offset ≤ fieldEnd)
    (hlength : fieldEnd ≤ data.length) :
    extraField data needs identifier offset fieldEnd zip64 = .ok zip64' ↔
      identifier ≠ 0x7075 ∧ identifier ≠ 0x9901 ∧ (identifier ≠ 1 → zip64' = zip64) ∧
      (identifier = 1 → needs.any = true ∧ zip64'.Fits needs ∧
        slice data offset fieldEnd = zip64'.content needs) := by
  unfold extraField
  split
  · next h =>
    subst h
    rw [zip64Field_eq_ok hend hlength]
    exact ⟨fun h => ⟨by decide, by decide, fun hne => absurd rfl hne, fun _ => h⟩,
      fun h => h.2.2.2 rfl⟩
  split
  · next hbad =>
    constructor
    · intro h
      cases h
    · rintro ⟨hne, hne', -⟩
      exact absurd hbad (not_or.mpr ⟨hne, hne'⟩)
  · next h hbad =>
    obtain ⟨hne, hne'⟩ := not_or.mp hbad
    constructor
    · intro heq
      cases heq
      exact ⟨hne, hne', fun _ => rfl, fun h1 => absurd h1 h⟩
    · rintro ⟨-, -, hkept, -⟩
      rw [hkept h]

/-- What the loop asks of the fields, after those with the given identifiers. -/
structure FieldsFrom (needs : Zip64Needs) (identifiers : List Nat) (fields : List ExtraField)
    (zip64 zip64' : Zip64Extra) : Prop where
  distinct : (fields.map ExtraField.identifier).Nodup
  fresh : ∀ field ∈ fields, field.identifier ∉ identifiers
  allowed : ∀ field ∈ fields, field.identifier ≠ 0x7075 ∧ field.identifier ≠ 0x9901
  kept : (∀ field ∈ fields, field.identifier ≠ 1) → zip64' = zip64
  read : ∀ field ∈ fields, field.identifier = 1 →
    needs.any = true ∧ zip64'.Fits needs ∧ field.content = zip64'.content needs

/-- The loop takes one field off the area. -/
theorem extraFields_succ {data : Bytes} {stop turns : Nat} (hlt : offset < stop)
    (hstop : stop ≤ data.length) :
    extraFields data needs stop (turns + 1) offset identifiers zip64 = .ok zip64' ↔
      ∃ (field : ExtraField) (zip64₁ : Zip64Extra),
        slice data offset stop = field.bytes ++ slice data (offset + field.bytes.length) stop ∧
        field.identifier ∉ identifiers ∧
        extraField data needs field.identifier (offset + 4) (offset + field.bytes.length) zip64 =
          .ok zip64₁ ∧
        extraFields data needs stop turns (offset + field.bytes.length)
          (field.identifier :: identifiers) zip64₁ = .ok zip64' := by
  simp only [extraFields, if_pos hlt, bind_eq_ok, demand_eq_ok, decide_eq_true_eq,
    Bool.and_eq_true, Bool.not_eq_true', List.contains_eq_mem, decide_eq_false_iff_not,
    readsLittle_little16 data]
  constructor
  · rintro ⟨-, hheader, identifier, ⟨hidentifier, htail⟩, size, ⟨hsize, htail'⟩, -, ⟨hfits, hfresh⟩,
      zip64₁, hfield, hrest⟩
    have hlength : (slice data (offset + 4) (offset + 4 + size)).length = size := by
      rw [length_slice (by omega)]
      omega
    let field : ExtraField :=
      ⟨identifier, slice data (offset + 4) (offset + 4 + size), hidentifier, by omega⟩
    have hbytes : offset + field.bytes.length = offset + 4 + size := by
      rw [field.length_bytes, ← Nat.add_assoc, hlength]
    refine ⟨field, zip64₁, ?_, hfresh, hbytes ▸ hfield, hbytes ▸ hrest⟩
    rw [hbytes, ExtraField.bytes, List.append_assoc, List.append_assoc,
      slice_eq_append hstop hlt.le, slice_eq_append hstop (by rw [length_littleBytes]; omega),
      length_littleBytes, length_littleBytes,
      slice_eq_append hstop (show offset + 2 + 2 ≤ stop by omega)]
    refine ⟨htail, by omega, ?_, by omega, ?_, ?_, ?_⟩
    · exact hlength ▸ htail'
    · exact ((slice_eq (by omega) (Nat.le_add_right _ _)).mp rfl).1
    · exact hlength ▸ (by omega : offset + 2 + 2 + size ≤ stop)
    · rw [hlength]
  · rintro ⟨field, zip64₁, hslice, hfresh, hfield, hrest⟩
    obtain ⟨hidentifier, hsize, hlength⟩ := And.intro field.identifier_lt
      (And.intro field.content_lt field.length_bytes)
    obtain ⟨-, hle, -⟩ := (slice_eq_append hstop hlt.le).mp hslice
    rw [hlength, ← Nat.add_assoc] at hfield hrest hle
    rw [ExtraField.bytes, List.append_assoc, List.append_assoc, slice_eq_append hstop hlt.le,
      slice_eq_append hstop (by rw [length_littleBytes]; omega), length_littleBytes] at hslice
    obtain ⟨htail, -, htail', -, -⟩ := hslice
    exact ⟨(), by omega, field.identifier, ⟨hidentifier, htail⟩, field.content.length,
      ⟨hsize, htail'⟩, (), ⟨by omega, hfresh⟩, zip64₁, hfield, hrest⟩

theorem fieldsFrom_cons {field : ExtraField} {fields : List ExtraField} :
    FieldsFrom needs identifiers (field :: fields) zip64 zip64' ↔
      field.identifier ∉ identifiers ∧ field.identifier ≠ 0x7075 ∧ field.identifier ≠ 0x9901 ∧
      ∃ zip64₁, (field.identifier ≠ 1 → zip64₁ = zip64) ∧
        (field.identifier = 1 → needs.any = true ∧ zip64₁.Fits needs ∧
          field.content = zip64₁.content needs) ∧
        FieldsFrom needs (field.identifier :: identifiers) fields zip64₁ zip64' := by
  constructor
  · rintro ⟨hdistinct, hfresh, hallowed, hkept, hread⟩
    obtain ⟨hnew, hdistinct⟩ := List.nodup_cons.mp hdistinct
    have hother : ∀ other ∈ fields, other.identifier ≠ field.identifier := fun other hmem heq =>
      hnew (heq ▸ List.mem_map_of_mem hmem)
    obtain ⟨hbad, hbad'⟩ := hallowed field List.mem_cons_self
    refine ⟨hfresh field List.mem_cons_self, hbad, hbad', ?_⟩
    have hrest : ∀ zip64₁, ((∀ other ∈ fields, other.identifier ≠ 1) → zip64' = zip64₁) →
        FieldsFrom needs (field.identifier :: identifiers) fields zip64₁ zip64' := fun zip64₁ h =>
      ⟨hdistinct, fun other hmem hid => (List.mem_cons.mp hid).elim (hother other hmem)
        (hfresh other (List.mem_cons_of_mem _ hmem)),
        fun other hmem => hallowed other (List.mem_cons_of_mem _ hmem), h,
        fun other hmem => hread other (List.mem_cons_of_mem _ hmem)⟩
    by_cases h1 : field.identifier = 1
    · exact ⟨zip64', fun hne => absurd h1 hne, hread field List.mem_cons_self,
        hrest zip64' fun _ => rfl⟩
    · refine ⟨zip64, fun _ => rfl, fun h => absurd h h1, hrest zip64 fun h => hkept ?_⟩
      exact List.forall_mem_cons.mpr ⟨h1, h⟩
  · rintro ⟨hnew, hbad, hbad', zip64₁, hkept, hread, hrest⟩
    have hother : ∀ other ∈ fields, other.identifier ≠ field.identifier := fun other hmem heq =>
      hrest.fresh other hmem (heq ▸ List.mem_cons_self)
    refine ⟨List.nodup_cons.mpr ⟨?_, hrest.distinct⟩, List.forall_mem_cons.mpr ⟨hnew, ?_⟩,
      List.forall_mem_cons.mpr ⟨⟨hbad, hbad'⟩, hrest.allowed⟩, ?_,
      List.forall_mem_cons.mpr ⟨?_, hrest.read⟩⟩
    · intro hmem
      obtain ⟨other, hother', heq⟩ := List.mem_map.mp hmem
      exact hother other hother' heq
    · exact fun other hmem hid => hrest.fresh other hmem (List.mem_cons_of_mem _ hid)
    · intro h
      obtain ⟨h1, h⟩ := List.forall_mem_cons.mp h
      rw [hrest.kept h, hkept h1]
    · -- No later field is a ZIP64 field, so the values of this one are the result.
      intro h1
      rw [hrest.kept fun other hmem => h1 ▸ hother other hmem]
      exact hread h1

theorem fieldsFrom_nil : FieldsFrom needs identifiers [] zip64 zip64' ↔ zip64' = zip64 :=
  ⟨fun h => h.kept (List.forall_mem_nil _), fun h => ⟨List.nodup_nil, List.forall_mem_nil _,
    List.forall_mem_nil _, fun _ => h, List.forall_mem_nil _⟩⟩

/-- At the end of the area there is no field left. -/
theorem fieldsFrom_end {data : Bytes} {stop : Nat} :
    (∃ fields, slice data stop stop = fields.flatMap ExtraField.bytes ∧
      FieldsFrom needs identifiers fields zip64 zip64') ↔ zip64' = zip64 := by
  rw [slice, Nat.sub_self, List.take_zero]
  constructor
  · rintro ⟨fields, hnil, hfields⟩
    cases fields with
    | nil => exact fieldsFrom_nil.mp hfields
    | cons field fields =>
      have hlength := congrArg List.length hnil
      rw [List.flatMap_cons, List.length_append, field.length_bytes, List.length_nil] at hlength
      omega
  · intro h
    exact ⟨[], rfl, fieldsFrom_nil.mpr h⟩

/-- The loop accepts the rest of the area exactly if it is a run of fields. -/
theorem extraFields_eq_ok {data : Bytes} {stop : Nat} (hstop : stop ≤ data.length) :
    ∀ {turns offset : Nat} {identifiers : List Nat}
    {zip64 : Zip64Extra}, offset ≤ stop → stop - offset ≤ turns →
    (extraFields data needs stop turns offset identifiers zip64 = .ok zip64' ↔
      ∃ fields, slice data offset stop = fields.flatMap ExtraField.bytes ∧
        FieldsFrom needs identifiers fields zip64 zip64') := by
  intro turns
  induction turns with
  | zero =>
    intro offset identifiers zip64 hle hturns
    obtain rfl : offset = stop := by omega
    rw [fieldsFrom_end, extraFields, Except.ok.injEq, eq_comm]
  | succ turns ih =>
    intro offset identifiers zip64 hle hturns
    rcases Nat.lt_or_eq_of_le hle with hlt | rfl
    · rw [extraFields_succ hlt hstop]
      constructor
      · rintro ⟨field, zip64₁, hslice, hfresh, hfield, hrest⟩
        obtain ⟨-, hend, -⟩ := (slice_eq_append hstop hle).mp hslice
        have hlength := field.length_bytes
        obtain ⟨fields, hfields, hfrom⟩ := (ih hend (by omega)).mp hrest
        obtain ⟨hbad, hbad', hkept, hread⟩ :=
          (extraField_eq_ok (by omega) (Nat.le_trans hend hstop)).mp hfield
        refine ⟨field :: fields, by rw [hslice, hfields, List.flatMap_cons], fieldsFrom_cons.mpr
          ⟨hfresh, hbad, hbad', zip64₁, hkept, fun h => ?_, hfrom⟩⟩
        rw [← field.content_slice hstop hle hslice]
        exact hread h
      · rintro ⟨fields, hslice, hfrom⟩
        cases fields with
        | nil =>
          have hlength := congrArg List.length hslice
          rw [length_slice hstop, List.flatMap_nil, List.length_nil] at hlength
          omega
        | cons field fields =>
          obtain ⟨hfresh, hbad, hbad', zip64₁, hkept, hread, hfrom⟩ := fieldsFrom_cons.mp hfrom
          rw [List.flatMap_cons] at hslice
          obtain ⟨-, hend, hrest⟩ := (slice_eq_append hstop hle).mp hslice
          have hlength := field.length_bytes
          rw [← hrest] at hslice
          refine ⟨field, zip64₁, hslice, hfresh, ?_,
            (ih hend (by omega)).mpr ⟨fields, hrest, hfrom⟩⟩
          refine (extraField_eq_ok (by omega) (Nat.le_trans hend hstop)).mpr
            ⟨hbad, hbad', hkept, fun h => ?_⟩
          rw [field.content_slice hstop hle hslice]
          exact hread h
    · rw [fieldsFrom_end, extraFields, if_neg (Nat.lt_irrefl _), Except.ok.injEq, eq_comm]

/-! ## Reading inside the range -/

/-- Two runs end the same way, and not because a read met the end of the data. -/
def SameEnd {α : Type} (run run' : Result α) : Prop :=
  run = run' ∧ run ≠ .error "ZIP structure is truncated"

theorem sameEnd_ok {α : Type} (a : α) : SameEnd (.ok a) (.ok a) :=
  ⟨rfl, fun h => by cases h⟩

theorem sameEnd_error {α : Type} (h : message ≠ "ZIP structure is truncated") :
    SameEnd (.error message : Result α) (.error message) :=
  ⟨rfl, fun heq => h (Except.error.inj heq)⟩

theorem SameEnd.bind {α β : Type} {run run' : Result α} {next next' : α → Result β}
    (h : SameEnd run run') (hnext : ∀ a, run = .ok a → SameEnd (next a) (next' a)) :
    SameEnd (run >>= next) (run' >>= next') := by
  obtain ⟨rfl, hne⟩ := h
  cases run with
  | ok a => exact hnext a rfl
  | error message => exact ⟨rfl, fun h => hne (by cases h; rfl)⟩

theorem sameEnd_demand (condition : Bool) (h : message ≠ "ZIP structure is truncated") :
    SameEnd (demand condition message) (demand condition message) := by
  unfold demand
  split
  · exact sameEnd_ok ()
  · exact sameEnd_error h

theorem exists_littleBytes : ∀ bytes : Bytes,
    ∃ n < 256 ^ bytes.length, bytes = littleBytes bytes.length n
  | [] => ⟨0, by decide, rfl⟩
  | b :: bytes => by
    obtain ⟨n, hn, hbytes⟩ := exists_littleBytes bytes
    have hb := b.toNat_lt
    refine ⟨b.toNat + 256 * n, ?_, ?_⟩
    · rw [List.length_cons, Nat.pow_succ']
      omega
    · rw [List.length_cons, littleBytes, ofNat_byte (b := b) (by omega),
        show (b.toNat + 256 * n) / 256 = n by omega, ← hbytes]

section Inside

variable {data data' : Bytes} {start stop : Nat}

/-- Both buffers hold the range, with the same bytes in it. -/
structure SameRange (data data' : Bytes) (start stop : Nat) : Prop where
  inside : stop ≤ data.length
  inside' : stop ≤ data'.length
  same : slice data start stop = slice data' start stop

theorem SameRange.sub (h : SameRange data data' start stop) {first last : Nat}
    (hfirst : start ≤ first) (hlast : last ≤ stop) :
    slice data first last = slice data' first last := by
  have hpart : ∀ bytes : Bytes,
      slice bytes first last = ((slice bytes start stop).drop (first - start)).take
        (last - first) := by
    intro bytes
    rw [slice, slice, List.drop_take, List.drop_drop, List.take_take]
    congr 2 <;> omega
  rw [hpart data, hpart data', h.same]

/-- A number inside the range is read, the same from both buffers. -/
theorem SameRange.read (h : SameRange data data' start stop) {read : Bytes → Nat → Result Nat}
    (hread : ReadsLittle read width) (hstart : start ≤ offset) (hend : offset + width ≤ stop) :
    SameEnd (read data offset) (read data' offset) := by
  have hinside := h.inside
  have hlength : (slice data offset (offset + width)).length = width := by
    rw [length_slice (by omega)]
    omega
  obtain ⟨n, hn, hbytes⟩ := exists_littleBytes (slice data offset (offset + width))
  rw [hlength] at hn hbytes
  have hok : ∀ bytes : Bytes, offset + width ≤ bytes.length →
      slice bytes offset (offset + width) = littleBytes width n → read bytes offset = .ok n :=
    fun bytes hle heq =>
      (hread bytes offset n).mpr ⟨hn, ((slice_eq hle (Nat.le_add_right _ _)).mp heq).1⟩
  rw [hok data (by omega) hbytes,
    hok data' (Nat.le_trans hend h.inside') ((h.sub hstart hend).symm.trans hbytes)]
  exact sameEnd_ok n

theorem SameRange.takeField (h : SameRange data data' start stop) {read : Bytes → Nat → Result Nat}
    (hread : ReadsLittle read width) (hstart : start ≤ offset) (hend : offset ≤ fieldEnd)
    (hstop : fieldEnd ≤ stop) (hmessage : message ≠ "ZIP structure is truncated") :
    SameEnd (takeField read width data fieldEnd needed message offset)
      (takeField read width data' fieldEnd needed message offset) := by
  unfold Archive.takeField
  split
  · refine (sameEnd_demand _ hmessage).bind fun _ hwidth => ?_
    rw [demand_eq_ok, decide_eq_true_eq] at hwidth
    exact (h.read hread hstart (by omega)).bind fun value _ => sameEnd_ok _
  · exact sameEnd_ok _

theorem le_of_takeField {read : Bytes → Nat → Result Nat} {taken : Nat × Nat}
    (hread : ReadsLittle read width) (hend : offset ≤ fieldEnd)
    (h : takeField read width data fieldEnd needed message offset = .ok taken) :
    offset ≤ taken.2 ∧ taken.2 ≤ fieldEnd := by
  obtain ⟨-, -, hle, heq⟩ := (takeField_eq_ok hread hend).mp h
  omega

theorem SameRange.zip64Field (h : SameRange data data' start stop) (hstart : start ≤ offset)
    (hend : offset ≤ fieldEnd) (hstop : fieldEnd ≤ stop) :
    SameEnd (zip64Field data needs offset fieldEnd) (zip64Field data' needs offset fieldEnd) := by
  refine (sameEnd_demand _ (by decide)).bind fun _ _ => ?_
  refine (h.takeField readsLittle_little64 hstart hend hstop (by decide)).bind fun _ h1 => ?_
  obtain ⟨hle1, hend1⟩ := le_of_takeField readsLittle_little64 hend h1
  refine (h.takeField readsLittle_little64 (by omega) hend1 hstop (by decide)).bind fun _ h2 => ?_
  obtain ⟨hle2, hend2⟩ := le_of_takeField readsLittle_little64 hend1 h2
  refine (h.takeField readsLittle_little64 (by omega) hend2 hstop (by decide)).bind fun _ h3 => ?_
  obtain ⟨hle3, hend3⟩ := le_of_takeField readsLittle_little64 hend2 h3
  refine (h.takeField readsLittle_little32 (by omega) hend3 hstop (by decide)).bind fun _ _ => ?_
  exact (sameEnd_demand _ (by decide)).bind fun _ _ => sameEnd_ok _

theorem SameRange.extraField (h : SameRange data data' start stop) {identifier : Nat}
    (hstart : start ≤ offset) (hend : offset ≤ fieldEnd) (hstop : fieldEnd ≤ stop) :
    SameEnd (extraField data needs identifier offset fieldEnd zip64)
      (extraField data' needs identifier offset fieldEnd zip64) := by
  unfold Archive.extraField
  split
  · exact h.zip64Field hstart hend hstop
  split
  · exact sameEnd_error (by decide)
  · exact sameEnd_ok _

/-- The loop reads inside the range only. -/
theorem SameRange.extraFields (h : SameRange data data' start stop) :
    ∀ {turns offset : Nat} {identifiers : List Nat} {zip64 : Zip64Extra}, start ≤ offset →
    SameEnd (extraFields data needs stop turns offset identifiers zip64)
      (extraFields data' needs stop turns offset identifiers zip64) := by
  intro turns
  induction turns with
  | zero => exact fun _ => sameEnd_ok _
  | succ turns ih =>
    intro offset identifiers zip64 hstart
    unfold Archive.extraFields
    split
    · refine (sameEnd_demand _ (by decide)).bind fun _ hheader => ?_
      rw [demand_eq_ok, decide_eq_true_eq] at hheader
      refine (h.read readsLittle_little16 hstart (by omega)).bind fun identifier _ => ?_
      refine (h.read readsLittle_little16 (by omega) (by omega)).bind fun size _ => ?_
      refine (sameEnd_demand _ (by decide)).bind fun _ hsize => ?_
      rw [demand_eq_ok, Bool.and_eq_true, decide_eq_true_eq] at hsize
      exact (h.extraField (by omega) (Nat.le_add_right _ _) (by omega)).bind fun zip64₁ _ =>
        ih (by omega)
    · exact sameEnd_ok _

theorem SameRange.parseExtraFields {size : Nat} (h : SameRange data data' offset (offset + size)) :
    SameEnd (parseExtraFields data offset size needs)
      (parseExtraFields data' offset size needs) := by
  have hfits : ∀ bytes : Bytes, offset + size ≤ bytes.length →
      (decide (offset ≤ bytes.length) && decide (size ≤ bytes.length - offset)) = true := by
    intro bytes hle
    simp only [Bool.and_eq_true, decide_eq_true_eq]
    omega
  unfold Archive.parseExtraFields
  rw [hfits data h.inside, hfits data' h.inside']
  refine (sameEnd_demand _ (by decide)).bind fun _ _ => ?_
  refine (h.extraFields (Nat.le_refl _)).bind fun zip64 _ => ?_
  exact (sameEnd_demand _ (by decide)).bind fun _ _ => sameEnd_ok _

end Inside

/-! ## Whole areas -/

/-- An extra area that serves the needs of its header with the given values. -/
structure ExtraArea (needs : Zip64Needs) (fields : List ExtraField) (extra : Zip64Extra) :
    Prop where
  distinct : (fields.map ExtraField.identifier).Nodup
  allowed : ∀ field ∈ fields, field.identifier ≠ 0x7075 ∧ field.identifier ≠ 0x9901
  zip64 : (∃ field ∈ fields, field.identifier = 1) ↔ needs.any = true
  content : ∀ field ∈ fields, field.identifier = 1 → field.content = extra.content needs
  fits : extra.Fits needs

theorem fits_empty (h : needs.any = false) : Zip64Extra.Fits {} needs := by
  simp only [Zip64Needs.any, Bool.or_eq_false_iff] at h
  obtain ⟨⟨⟨h1, h2⟩, h3⟩, h4⟩ := h
  refine ⟨?_, ?_, ?_, ?_, ?_⟩
  · simp [Zip64Needs.any, h1, h2, h3, h4]
  all_goals simp [NeededValue, h1, h2, h3, h4]

theorem eq_empty_of_fits (hfits : extra.Fits needs) (h : needs.any = false) : extra = {} := by
  obtain ⟨hpresent, hvalues⟩ := hfits
  rw [h] at hpresent
  simp only [Zip64Needs.any, Bool.or_eq_false_iff] at h
  obtain ⟨⟨⟨h1, h2⟩, h3⟩, h4⟩ := h
  cases extra
  simp_all [NeededValue]

theorem extraArea_iff {fields : List ExtraField} :
    ExtraArea needs fields extra ↔
      FieldsFrom needs [] fields {} extra ∧ (!needs.any || extra.present) = true := by
  constructor
  · intro h
    refine ⟨⟨h.distinct, fun _ _ => List.not_mem_nil, h.allowed, fun hnone => ?_,
      fun field hmem h1 => ⟨h.zip64.mp ⟨field, hmem, h1⟩, h.fits, h.content field hmem h1⟩⟩, ?_⟩
    · refine eq_empty_of_fits h.fits (Bool.eq_false_iff.mpr fun hany => ?_)
      obtain ⟨field, hmem, h1⟩ := h.zip64.mpr hany
      exact hnone field hmem h1
    · rw [h.fits.present]
      exact Bool.not_or_self _
  · rintro ⟨h, hpresent⟩
    by_cases hzip : ∃ field ∈ fields, field.identifier = 1
    · obtain ⟨field, hmem, h1⟩ := hzip
      obtain ⟨hany, hfits, -⟩ := h.read field hmem h1
      exact ⟨h.distinct, h.allowed, iff_of_true ⟨field, hmem, h1⟩ hany,
        fun other hother h1 => (h.read other hother h1).2.2, hfits⟩
    · have hnone : ∀ field ∈ fields, field.identifier ≠ 1 := fun field hmem h1 =>
        hzip ⟨field, hmem, h1⟩
      cases h.kept hnone
      have hany : needs.any = false := by simpa using hpresent
      exact ⟨h.distinct, h.allowed, iff_of_false hzip (by simp [hany]),
        fun field hmem h1 => absurd h1 (hnone field hmem), fits_empty hany⟩

/--
`parse_extra_fields` accepts exactly the well-formed extra areas, with the values of their ZIP64
field. Bytes outside of the range change nothing, and no read fails for want of bytes.
-/
theorem extra_fields_accepted_iff (data : Bytes) (offset size : Nat) (needs : Zip64Needs) :
    (∀ extra, parseExtraFields data offset size needs = .ok extra ↔
      offset + size ≤ data.length ∧ ∃ fields : List ExtraField,
        slice data offset (offset + size) = fields.flatMap ExtraField.bytes ∧
        ExtraArea needs fields extra) ∧
    (∀ data', SameRange data data' offset (offset + size) →
      parseExtraFields data offset size needs = parseExtraFields data' offset size needs) ∧
    parseExtraFields data offset size needs ≠ .error "ZIP structure is truncated" := by
  refine ⟨fun extra => ?_, fun data' h => h.parseExtraFields.1, ?_⟩
  · simp only [parseExtraFields, bind_eq_ok, demand_eq_ok, Bool.and_eq_true, decide_eq_true_eq]
    constructor
    · rintro ⟨-, hrange, zip64, hloop, -, hpresent, heq⟩
      cases heq
      obtain ⟨fields, hslice, hfields⟩ :=
        (extraFields_eq_ok (by omega) (Nat.le_add_right _ _) (by omega)).mp hloop
      exact ⟨by omega, fields, hslice, extraArea_iff.mpr ⟨hfields, hpresent⟩⟩
    · rintro ⟨hrange, fields, hslice, harea⟩
      obtain ⟨hfields, hpresent⟩ := extraArea_iff.mp harea
      exact ⟨(), by omega, extra, (extraFields_eq_ok hrange (Nat.le_add_right _ _)
        (by omega)).mpr ⟨fields, hslice, hfields⟩, (), hpresent, rfl⟩
  · by_cases hrange : offset + size ≤ data.length
    · exact (SameRange.mk hrange hrange rfl).parseExtraFields.2
    · have hbad : (decide (offset ≤ data.length) && decide (size ≤ data.length - offset)) =
        false := by
        simp only [Bool.and_eq_false_iff, decide_eq_false_iff_not]
        omega
      rw [parseExtraFields, hbad]
      exact (sameEnd_error (by decide)).2

end Usk.Archive
