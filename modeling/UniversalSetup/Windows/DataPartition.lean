import UniversalSetup.Json.Schema
import Mathlib.Data.List.Pairwise
import Mathlib.Data.List.Perm.Basic
import Mathlib.Tactic.Linarith

/-!
# The data partition of a disk

`require_publisher_data_partition` reads a disk layout once, from the first entry to the last. An
entry is compared with the entries before it; the partition of the extent, the reserved partition
and the first offset of a data partition are kept on the side.

What it accepts is a property of the layout as a collection, so the order of the entries makes no
difference.
-/

namespace Usk.Windows

open Json (Result demand bind_eq_ok demand_eq_ok)

/-- `GUID`. -/
structure Guid where
  data1 : UInt32
  data2 : UInt16
  data3 : UInt16
  data4 : List UInt8
deriving DecidableEq

def basicData : Guid :=
  ⟨0xebd0a0a2, 0xb9e5, 0x4433, [0x87, 0xc0, 0x68, 0xb6, 0xb7, 0x26, 0x99, 0xc7]⟩

def microsoftReserved : Guid :=
  ⟨0xe3c9e316, 0x0b5c, 0x4db8, [0x81, 0x7d, 0xf9, 0x2d, 0xf0, 0x02, 0x15, 0xae]⟩

def partitionStyleMbr : UInt32 := 0
def partitionStyleGpt : UInt32 := 1
def partitionIfs : UInt8 := 0x07

/-- `PARTITION_INFORMATION_EX`. Of the union, the style tells which of the two parts is read. -/
structure PartitionInformation where
  partitionStyle : UInt32
  startingOffset : Int
  partitionLength : Int
  partitionNumber : UInt32
  gptPartitionType : Guid
  gptAttributes : UInt64
  mbrPartitionType : UInt8
  mbrBootIndicator : Bool
deriving DecidableEq

/-- `DISK_EXTENT`, without the number of the disk. -/
structure DiskExtent where
  startingOffset : Int
  extentLength : Int

def longlongMax : Int := 2 ^ 63 - 1

/-- `range_end`. The difference and the sum stay in the range of a `LONGLONG`. -/
def rangeEnd (offset length : Int) : Result Int :=
  if offset ≤ 0 ∨ length ≤ 0 ∨ longlongMax - offset < length then
    .error "target partition range is invalid"
  else .ok (offset + length)

/-- What the loop keeps. -/
structure Scan where
  selected : Option PartitionInformation := none
  reserved : Option PartitionInformation := none
  firstData : Int := longlongMax

/-- The role of an entry: whether it holds data, or is the one reserved partition. -/
def partitionRole (style : UInt32) (part : PartitionInformation)
    (reserved : Option PartitionInformation) : Result Bool :=
  if style = partitionStyleGpt then do
    demand (part.gptAttributes == 0) "target disk contains unsupported partition attributes"
    if part.gptPartitionType == basicData then pure true
    else do
      demand (part.gptPartitionType == microsoftReserved && reserved.isNone &&
          decide (part.partitionLength ≤ 128 * 1024 * 1024))
        "target disk contains system or unclassified partition roles"
      pure false
  else do
    demand (!part.mbrBootIndicator && part.mbrPartitionType == partitionIfs)
      "target disk contains system or unclassified partition roles"
    pure true

/-- The loop over the entries before an entry that ends at `stop`. -/
def comparePrevious (part : PartitionInformation) (stop : Int) :
    List PartitionInformation → Result Unit
  | [] => .ok ()
  | other :: rest =>
    if other.partitionLength = 0 then comparePrevious part stop rest
    else do
      let otherEnd ← rangeEnd other.startingOffset other.partitionLength
      demand (!(part.partitionNumber == other.partitionNumber ||
          decide (part.startingOffset < otherEnd) && decide (other.startingOffset < stop)))
        "target partition layout is ambiguous"
      comparePrevious part stop rest

/-- One round of the loop over the entries. -/
def scanEntry (style : UInt32) (extent : DiskExtent) (extentEnd : Int)
    (previous : List PartitionInformation) (scan : Scan) (part : PartitionInformation) :
    Result Scan :=
  if part.partitionLength = 0 then .ok scan
  else do
    let stop ← rangeEnd part.startingOffset part.partitionLength
    demand (part.partitionStyle == style && part.partitionNumber != 0)
      "target partition identity is inconsistent"
    let data ← partitionRole style part scan.reserved
    let scan := if data then { scan with firstData := min scan.firstData part.startingOffset }
      else { scan with reserved := some part }
    comparePrevious part stop previous
    if part.startingOffset = extent.startingOffset ∧ stop = extentEnd then do
      demand (data && scan.selected.isNone) "target extent is not an ordinary data partition"
      pure { scan with selected := some part }
    else pure scan

def scanEntries (style : UInt32) (extent : DiskExtent) (extentEnd : Int) :
    (previous rest : List PartitionInformation) → Scan → Result Scan
  | _, [], scan => .ok scan
  | previous, part :: rest, scan => do
    let scan ← scanEntry style extent extentEnd previous scan part
    scanEntries style extent extentEnd (previous ++ [part]) rest scan

/-- The check after the loop. -/
def selectPartition (scan : Scan) : Result PartitionInformation :=
  match scan.selected, scan.reserved with
  | none, _ => .error "target data partition or preceding MSR is invalid"
  | some part, none => .ok part
  | some part, some reserved => do
    let stop ← rangeEnd reserved.startingOffset reserved.partitionLength
    demand (decide (stop ≤ scan.firstData)) "target data partition or preceding MSR is invalid"
    pure part

/-- `require_publisher_data_partition`. A null pointer is a layout without entries. -/
def requirePublisherDataPartition (style : UInt32) (entries : List PartitionInformation)
    (extent : DiskExtent) : Result PartitionInformation := do
  demand ((style == partitionStyleGpt || style == partitionStyleMbr) && !entries.isEmpty &&
    decide (entries.length ≤ 128)) "target disk layout is unsupported"
  let extentEnd ← rangeEnd extent.startingOffset extent.extentLength
  let scan ← scanEntries style extent extentEnd [] entries {}
  selectPartition scan

/-! ## Accepted layouts -/

/-- A range in front of the largest offset, not empty. -/
def ValidRange (offset length : Int) : Prop :=
  0 < offset ∧ 0 < length ∧ offset + length ≤ longlongMax

namespace PartitionInformation

def used (part : PartitionInformation) : Bool :=
  part.partitionLength != 0

/-- An ordinary data partition. -/
def isData (style : UInt32) (part : PartitionInformation) : Bool :=
  if style = partitionStyleGpt then
    part.gptAttributes == 0 && part.gptPartitionType == basicData
  else style == partitionStyleMbr && !part.mbrBootIndicator && part.mbrPartitionType == partitionIfs

/-- A reserved partition of a GPT disk, of at most 128 MiB. -/
def isReserved (style : UInt32) (part : PartitionInformation) : Bool :=
  style == partitionStyleGpt && part.gptAttributes == 0 &&
    part.gptPartitionType == microsoftReserved &&
    decide (part.partitionLength ≤ 128 * 1024 * 1024)

def hasRange (extent : DiskExtent) (part : PartitionInformation) : Bool :=
  decide (part.startingOffset = extent.startingOffset) &&
    decide (part.partitionLength = extent.extentLength)

/-- Two entries that can stand in one layout. -/
structure Apart (style : UInt32) (part other : PartitionInformation) : Prop where
  number : part.partitionNumber ≠ other.partitionNumber
  disjoint : part.startingOffset + part.partitionLength ≤ other.startingOffset ∨
    other.startingOffset + other.partitionLength ≤ part.startingOffset
  reserved : ¬(part.isReserved style = true ∧ other.isReserved style = true)

/-- What is asked of an entry by itself. -/
structure Admitted (style : UInt32) (part : PartitionInformation) : Prop where
  range : ValidRange part.startingOffset part.partitionLength
  styled : part.partitionStyle = style
  number : part.partitionNumber ≠ 0
  role : part.isData style = true ∨ part.isReserved style = true

end PartitionInformation

/-- A layout that can hold a target: of its entries with a length, each is admitted, every two are
apart, and the reserved one ends before the data. -/
structure DataLayout (style : UInt32) (used : List PartitionInformation) : Prop where
  admitted : ∀ part ∈ used, part.Admitted style
  apart : used.Pairwise (PartitionInformation.Apart style)
  reservedFirst : ∀ part ∈ used, ∀ other ∈ used, part.isReserved style = true →
    other.isData style = true → part.startingOffset + part.partitionLength ≤ other.startingOffset

/-! ## One entry -/

theorem rangeEnd_eq_ok {offset length stop : Int} :
    rangeEnd offset length = .ok stop ↔ ValidRange offset length ∧ stop = offset + length := by
  unfold rangeEnd ValidRange
  split
  · next h =>
    constructor
    · intro heq
      cases heq
    · rintro ⟨hvalid, -⟩
      omega
  · next h =>
    rw [Except.ok.injEq]
    constructor
    · intro heq
      omega
    · rintro ⟨-, heq⟩
      exact heq.symm

theorem isData_of_isReserved {style : UInt32} {part : PartitionInformation}
    (h : part.isReserved style = true) : part.isData style = false := by
  simp only [PartitionInformation.isReserved, Bool.and_eq_true, beq_iff_eq] at h
  obtain ⟨⟨⟨hstyle, -⟩, htype⟩, -⟩ := h
  rw [PartitionInformation.isData, if_pos hstyle, htype]
  exact Bool.and_false _

theorem partitionRole_eq_ok {style : UInt32} {part : PartitionInformation}
    {reserved : Option PartitionInformation} {data : Bool}
    (hstyle : style = partitionStyleGpt ∨ style = partitionStyleMbr) :
    partitionRole style part reserved = .ok data ↔ part.isData style = data ∧
      (data = false → part.isReserved style = true ∧ reserved = none) := by
  unfold partitionRole PartitionInformation.isData PartitionInformation.isReserved
  rw [← Option.isNone_iff_eq_none]
  rcases hstyle with rfl | rfl
  · simp only [if_true, beq_self_eq_true, Bool.true_and]
    cases part.gptAttributes == 0 with
    | false => cases data <;> simp [demand, bind, Except.bind]
    | true =>
      cases part.gptPartitionType == basicData with
      | true => cases data <;> simp [demand, bind, Except.bind, pure, Except.pure]
      | false =>
        cases part.gptPartitionType == microsoftReserved with
        | false => cases data <;> simp [demand, bind, Except.bind]
        | true =>
          cases reserved.isNone <;> cases decide (part.partitionLength ≤ 128 * 1024 * 1024) <;>
            cases data <;> simp [demand, bind, Except.bind, pure, Except.pure]
  · have hne : ¬partitionStyleMbr = partitionStyleGpt := by decide
    simp only [if_neg hne, beq_eq_false_iff_ne.mpr hne, beq_self_eq_true, Bool.true_and,
      Bool.false_and]
    cases !part.mbrBootIndicator && part.mbrPartitionType == partitionIfs with
    | false => cases data <;> simp [demand, bind, Except.bind]
    | true => cases data <;> simp [demand, bind, Except.bind, pure, Except.pure]

theorem comparePrevious_eq_ok {part : PartitionInformation} {stop : Int} {u : Unit} :
    ∀ {previous : List PartitionInformation}, comparePrevious part stop previous = .ok u ↔
      ∀ other ∈ previous.filter PartitionInformation.used,
        ValidRange other.startingOffset other.partitionLength ∧
        part.partitionNumber ≠ other.partitionNumber ∧
        (other.startingOffset + other.partitionLength ≤ part.startingOffset ∨
          stop ≤ other.startingOffset)
  | [] => by simp [comparePrevious]
  | other :: rest => by
    unfold comparePrevious
    split
    · next h =>
      rw [comparePrevious_eq_ok, List.filter_cons_of_neg (by simp [PartitionInformation.used, h])]
    · next h =>
      rw [List.filter_cons_of_pos (by simp [PartitionInformation.used, h]), List.forall_mem_cons,
        ← comparePrevious_eq_ok (u := u)]
      simp only [bind_eq_ok, demand_eq_ok, rangeEnd_eq_ok]
      constructor
      · rintro ⟨stop', ⟨hrange, rfl⟩, -, hapart, hrest⟩
        refine ⟨⟨hrange, ?_⟩, hrest⟩
        simpa using hapart
      · rintro ⟨⟨hrange, hapart⟩, hrest⟩
        refine ⟨_, ⟨hrange, rfl⟩, (), ?_, hrest⟩
        simpa using hapart

/-! ## The scan -/

/-- What the scan knows after some entries with a length. -/
structure Scanned (style : UInt32) (extent : DiskExtent) (used : List PartitionInformation)
    (scan : Scan) : Prop where
  admitted : ∀ part ∈ used, part.Admitted style
  apart : used.Pairwise (PartitionInformation.Apart style)
  selected : used.filter (PartitionInformation.hasRange extent) = scan.selected.toList
  data : ∀ part ∈ scan.selected, part.isData style = true
  reserved : used.filter (PartitionInformation.isReserved style) = scan.reserved.toList
  firstData : ∀ bound ≤ longlongMax, (bound ≤ scan.firstData ↔
    ∀ part ∈ used, part.isData style = true → bound ≤ part.startingOffset)

theorem scanned_nil (style : UInt32) (extent : DiskExtent) : Scanned style extent [] {} where
  admitted := List.forall_mem_nil _
  apart := List.Pairwise.nil
  selected := rfl
  data := fun _ h => by cases h
  reserved := rfl
  firstData := fun _ hbound => iff_of_true hbound (List.forall_mem_nil _)

section Step

variable {style : UInt32} {extent : DiskExtent} {extentEnd : Int} {scan scan' : Scan}
  {previous : List PartitionInformation} {part : PartitionInformation}

/-- The scan after an entry that passes. -/
def Scan.next (scan : Scan) (style : UInt32) (extent : DiskExtent) (part : PartitionInformation) :
    Scan :=
  { selected := if part.hasRange extent then some part else scan.selected
    reserved := if part.isData style then scan.reserved else some part
    firstData := if part.isData style then min scan.firstData part.startingOffset
      else scan.firstData }

/-- What a round asks of an entry. -/
theorem scanEntry_eq_ok (hstyle : style = partitionStyleGpt ∨ style = partitionStyleMbr)
    (hend : extentEnd = extent.startingOffset + extent.extentLength) (hused : part.used = true) :
    scanEntry style extent extentEnd previous scan part = .ok scan' ↔
      part.Admitted style ∧ (part.isData style = false → scan.reserved = none) ∧
      (∀ other ∈ previous.filter PartitionInformation.used,
        ValidRange other.startingOffset other.partitionLength ∧
        part.partitionNumber ≠ other.partitionNumber ∧
        (other.startingOffset + other.partitionLength ≤ part.startingOffset ∨
          part.startingOffset + part.partitionLength ≤ other.startingOffset)) ∧
      (part.hasRange extent = true → part.isData style = true ∧ scan.selected = none) ∧
      scan' = scan.next style extent part := by
  have hlength : part.partitionLength ≠ 0 := by simpa [PartitionInformation.used] using hused
  have hrange : (part.startingOffset = extent.startingOffset ∧
      part.startingOffset + part.partitionLength = extentEnd) ↔ part.hasRange extent = true := by
    simp only [PartitionInformation.hasRange, Bool.and_eq_true, decide_eq_true_eq]
    omega
  simp only [scanEntry, if_neg hlength, bind_eq_ok, demand_eq_ok, rangeEnd_eq_ok,
    partitionRole_eq_ok hstyle, comparePrevious_eq_ok, Bool.and_eq_true, beq_iff_eq, bne_iff_ne]
  constructor
  · rintro ⟨stop, ⟨hvalid, rfl⟩, -, ⟨hstyled, hnumber⟩, data, ⟨rfl, hreserved⟩, -, hprevious, h⟩
    refine ⟨⟨hvalid, hstyled, hnumber, ?_⟩, fun hdata => (hreserved hdata).2, hprevious, ?_⟩
    · by_cases hdata : part.isData style = true
      · exact .inl hdata
      · exact .inr (hreserved (Bool.not_eq_true _ ▸ hdata)).1
    rw [Scan.next]
    by_cases hhas : part.hasRange extent = true
    · rw [if_pos (hrange.mpr hhas)] at h
      simp only [bind_eq_ok, demand_eq_ok, Bool.and_eq_true, Option.isNone_iff_eq_none] at h
      obtain ⟨-, ⟨hdata, hnone⟩, h⟩ := h
      rw [if_pos hdata] at h hnone
      rw [if_pos hhas, if_pos hdata, if_pos hdata]
      exact ⟨fun _ => ⟨hdata, hnone⟩, (Except.ok.inj h).symm⟩
    · rw [if_neg (hrange.not.mpr hhas)] at h
      refine ⟨fun h' => absurd h' hhas, ?_⟩
      rw [if_neg hhas]
      cases h
      cases part.isData style <;> rfl
  · rintro ⟨hadmitted, hreserved, hprevious, hselected, rfl⟩
    refine ⟨_, ⟨hadmitted.range, rfl⟩, (), ⟨hadmitted.styled, hadmitted.number⟩, part.isData style,
      ⟨rfl, fun hdata => ⟨hadmitted.role.resolve_left (by simp [hdata]), hreserved hdata⟩⟩, (),
      hprevious, ?_⟩
    rw [Scan.next]
    by_cases hhas : part.hasRange extent = true
    · obtain ⟨hdata, hnone⟩ := hselected hhas
      simp only [if_pos (hrange.mpr hhas), if_pos hhas, hdata, if_true, bind_eq_ok, demand_eq_ok,
        hnone, Option.isNone_none, Bool.and_self]
      exact ⟨(), trivial, rfl⟩
    · rw [if_neg (hrange.not.mpr hhas), if_neg hhas]
      cases part.isData style <;> rfl

theorem scanEntry_unused (h : part.used = false) :
    scanEntry style extent extentEnd previous scan part = .ok scan := by
  have hlength : part.partitionLength = 0 := by simpa [PartitionInformation.used] using h
  rw [scanEntry, if_pos hlength]

theorem filter_concat {α : Type} (p : α → Bool) (xs : List α) (x : α) :
    (xs ++ [x]).filter p = xs.filter p ++ if p x then [x] else [] := by
  rw [List.filter_append, List.filter_singleton]
  cases p x <;> rfl

/-- An entry that passes leaves the scan as it should be. -/
theorem Scanned.entry (hstyle : style = partitionStyleGpt ∨ style = partitionStyleMbr)
    (hend : extentEnd = extent.startingOffset + extent.extentLength)
    (h : Scanned style extent (previous.filter PartitionInformation.used) scan)
    (hscan : scanEntry style extent extentEnd previous scan part = .ok scan') :
    Scanned style extent ((previous ++ [part]).filter PartitionInformation.used) scan' := by
  rw [filter_concat]
  by_cases hused : part.used = true
  · obtain ⟨hadmitted, hreserved, hprevious, hselected, rfl⟩ :=
      (scanEntry_eq_ok hstyle hend hused).mp hscan
    have hrole : part.isData style = false ↔ part.isReserved style = true :=
      ⟨fun hdata => hadmitted.role.resolve_left (by simp [hdata]), isData_of_isReserved⟩
    rw [if_pos hused]
    refine ⟨?_, ?_, ?_, ?_, ?_, ?_⟩
    · exact List.forall_mem_append.mpr ⟨h.admitted, List.forall_mem_singleton.mpr hadmitted⟩
    · refine List.pairwise_append.mpr ⟨h.apart, List.pairwise_singleton _ _, ?_⟩
      intro other hother p hp
      rw [List.mem_singleton.mp hp]
      obtain ⟨-, hnumber, hdisjoint⟩ := hprevious other hother
      refine ⟨hnumber.symm, hdisjoint, fun hboth => ?_⟩
      -- A second reserved partition is refused before the entries are compared.
      have hmem := List.mem_filter.mpr ⟨hother, hboth.1⟩
      rw [h.reserved, hreserved (hrole.mpr hboth.2)] at hmem
      cases hmem
    · rw [filter_concat, h.selected, Scan.next]
      by_cases hhas : part.hasRange extent = true
      · rw [if_pos hhas, if_pos hhas, (hselected hhas).2]
        rfl
      · rw [if_neg hhas, if_neg hhas, List.append_nil]
    · intro p hp
      rw [Scan.next] at hp
      by_cases hhas : part.hasRange extent = true
      · rw [if_pos hhas] at hp
        cases hp
        exact (hselected hhas).1
      · rw [if_neg hhas] at hp
        exact h.data p hp
    · rw [filter_concat, h.reserved, Scan.next]
      by_cases hdata : part.isData style = true
      · have hnot : ¬part.isReserved style = true := fun hr => by simp [hrole.mpr hr] at hdata
        rw [if_pos hdata, if_neg hnot, List.append_nil]
      · rw [Bool.not_eq_true] at hdata
        rw [hdata, if_pos (hrole.mp hdata), hreserved hdata]
        rfl
    · intro bound hbound
      rw [List.forall_mem_append, List.forall_mem_singleton, ← h.firstData bound hbound, Scan.next]
      cases part.isData style with
      | true => simp
      | false => simp
  · rw [Bool.not_eq_true] at hused
    rw [scanEntry_unused hused] at hscan
    cases hscan
    rw [hused, if_neg Bool.false_ne_true, List.append_nil]
    exact h

/-- An entry of an accepted layout passes. -/
theorem Scanned.succeeds (hstyle : style = partitionStyleGpt ∨ style = partitionStyleMbr)
    (hend : extentEnd = extent.startingOffset + extent.extentLength)
    (h : Scanned style extent (previous.filter PartitionInformation.used) scan)
    (hadmitted : part.used = true → part.Admitted style)
    (hapart : ∀ other ∈ previous.filter PartitionInformation.used, part.used = true →
      other.Apart style part)
    (hdata : part.used = true → part.hasRange extent = true → part.isData style = true) :
    ∃ scan', scanEntry style extent extentEnd previous scan part = .ok scan' := by
  by_cases hused : part.used = true
  · refine ⟨_, (scanEntry_eq_ok hstyle hend hused).mpr ⟨hadmitted hused, ?_, ?_, ?_, rfl⟩⟩
    · intro hnot
      have hreserved := (hadmitted hused).role.resolve_left (by simp [hnot])
      rw [← Option.toList_eq_nil_iff, ← h.reserved, List.filter_eq_nil_iff]
      exact fun other hother hr => (hapart other hother hused).reserved ⟨hr, hreserved⟩
    · intro other hother
      have hother' := hapart other hother hused
      exact ⟨(h.admitted other hother).range, hother'.number.symm, hother'.disjoint⟩
    · intro hhas
      refine ⟨hdata hused hhas, ?_⟩
      rw [← Option.toList_eq_nil_iff, ← h.selected, List.filter_eq_nil_iff]
      intro other hother hsame
      have hrange := (hadmitted hused).range
      have hdisjoint := (hapart other hother hused).disjoint
      simp only [PartitionInformation.hasRange, Bool.and_eq_true, decide_eq_true_eq] at hhas hsame
      unfold ValidRange at hrange
      omega
  · exact ⟨scan, scanEntry_unused (Bool.not_eq_true _ ▸ hused)⟩

end Step

section Run

variable {style : UInt32} {extent : DiskExtent} {extentEnd : Int}
  (hstyle : style = partitionStyleGpt ∨ style = partitionStyleMbr)
  (hend : extentEnd = extent.startingOffset + extent.extentLength)

include hstyle hend

theorem Scanned.entries : ∀ {rest previous : List PartitionInformation} {scan scan' : Scan},
    Scanned style extent (previous.filter PartitionInformation.used) scan →
    scanEntries style extent extentEnd previous rest scan = .ok scan' →
    Scanned style extent ((previous ++ rest).filter PartitionInformation.used) scan'
  | [], previous, scan, scan', h, hscan => by
    cases hscan
    rwa [List.append_nil]
  | part :: rest, previous, scan, scan', h, hscan => by
    rw [scanEntries, bind_eq_ok] at hscan
    obtain ⟨scan₁, hentry, hrest⟩ := hscan
    rw [List.append_cons]
    exact Scanned.entries (h.entry hstyle hend hentry) hrest

theorem Scanned.entries_succeed : ∀ {rest previous : List PartitionInformation} {scan : Scan},
    Scanned style extent (previous.filter PartitionInformation.used) scan →
    (∀ part ∈ rest.filter PartitionInformation.used, part.Admitted style) →
    ((previous ++ rest).filter PartitionInformation.used).Pairwise
      (PartitionInformation.Apart style) →
    (∀ part ∈ rest.filter PartitionInformation.used, part.hasRange extent = true →
      part.isData style = true) →
    ∃ scan', scanEntries style extent extentEnd previous rest scan = .ok scan'
  | [], previous, scan, _, _, _, _ => ⟨scan, rfl⟩
  | part :: rest, previous, scan, h, hadmitted, hapart, hdata => by
    have hmem : part.used = true → part ∈ (part :: rest).filter PartitionInformation.used :=
      fun hused => List.mem_filter.mpr ⟨List.mem_cons_self, hused⟩
    have hrest : ∀ other ∈ rest.filter PartitionInformation.used,
        other ∈ (part :: rest).filter PartitionInformation.used := by
      intro other hother
      obtain ⟨hin, hused⟩ := List.mem_filter.mp hother
      exact List.mem_filter.mpr ⟨List.mem_cons_of_mem _ hin, hused⟩
    obtain ⟨scan₁, hentry⟩ := h.succeeds hstyle hend (fun hused => hadmitted part (hmem hused))
      (fun other hother hused => (List.pairwise_append.mp (List.filter_append _ _ ▸ hapart)).2.2
        other hother part (hmem hused)) (fun hused => hdata part (hmem hused))
    rw [List.append_cons] at hapart
    obtain ⟨scan', hscan⟩ := Scanned.entries_succeed (h.entry hstyle hend hentry)
      (fun other hother => hadmitted other (hrest other hother)) hapart
      (fun other hother => hdata other (hrest other hother))
    exact ⟨scan', bind_eq_ok.mpr ⟨scan₁, hentry, hscan⟩⟩

end Run

/-! ## Whole layouts -/

instance (style : UInt32) : Std.Symm (PartitionInformation.Apart style) where
  symm _ _ h := ⟨h.number.symm, h.disjoint.symm, fun hboth => h.reserved hboth.symm⟩

theorem selectPartition_eq_ok {scan : Scan} {part : PartitionInformation} :
    selectPartition scan = .ok part ↔ scan.selected = some part ∧ ∀ reserved ∈ scan.reserved,
      ValidRange reserved.startingOffset reserved.partitionLength ∧
        reserved.startingOffset + reserved.partitionLength ≤ scan.firstData := by
  unfold selectPartition
  cases scan.selected with
  | none => simp
  | some found =>
    cases scan.reserved with
    | none => simp
    | some reserved =>
      simp only [bind_eq_ok, demand_eq_ok, rangeEnd_eq_ok, decide_eq_true_eq, Option.mem_def,
        Option.some.injEq, forall_eq']
      constructor
      · rintro ⟨stop, ⟨hvalid, rfl⟩, -, hle, h⟩
        cases h
        exact ⟨rfl, hvalid, hle⟩
      · rintro ⟨rfl, hvalid, hle⟩
        exact ⟨_, ⟨hvalid, rfl⟩, (), hle, rfl⟩

/-- Two entries of a layout do not have the same range. -/
theorem DataLayout.eq_of_hasRange {style : UInt32} {extent : DiskExtent}
    {used : List PartitionInformation} (h : DataLayout style used)
    {part other : PartitionInformation} (hpart : part ∈ used) (hother : other ∈ used)
    (hrange : part.hasRange extent = true) (hrange' : other.hasRange extent = true) :
    part = other := by
  by_contra hne
  have hdisjoint := (h.apart.forall hpart hother hne).disjoint
  have hvalid := (h.admitted part hpart).range
  simp only [PartitionInformation.hasRange, Bool.and_eq_true, decide_eq_true_eq] at hrange hrange'
  unfold ValidRange at hvalid
  omega

theorem style_of_isData {style : UInt32} {part : PartitionInformation}
    (h : part.isData style = true) : style = partitionStyleGpt ∨ style = partitionStyleMbr := by
  unfold PartitionInformation.isData at h
  split at h
  · next hgpt => exact .inl hgpt
  · simp only [Bool.and_eq_true, beq_iff_eq] at h
    exact .inr h.1.1

/-- The entries of an extent. -/
def dataOfExtent (style : UInt32) (extent : DiskExtent) (entries : List PartitionInformation) :
    List PartitionInformation :=
  (entries.filter PartitionInformation.used).filter fun part =>
    part.isData style && part.hasRange extent

theorem requirePublisherDataPartition_eq_ok {style : UInt32} {entries : List PartitionInformation}
    {extent : DiskExtent} {part : PartitionInformation} :
    requirePublisherDataPartition style entries extent = .ok part ↔ entries.length ≤ 128 ∧
      DataLayout style (entries.filter PartitionInformation.used) ∧
      dataOfExtent style extent entries = [part] := by
  simp only [requirePublisherDataPartition, bind_eq_ok, demand_eq_ok, rangeEnd_eq_ok,
    selectPartition_eq_ok, Bool.and_eq_true, Bool.or_eq_true, beq_iff_eq, decide_eq_true_eq]
  constructor
  · rintro ⟨-, ⟨⟨hstyle, -⟩, hlength⟩, extentEnd, ⟨hvalid, hend⟩, scan, hscan, hselected, hfirst⟩
    have h : Scanned style extent (entries.filter PartitionInformation.used) scan :=
      @Scanned.entries _ _ _ hstyle hend entries [] {} scan (scanned_nil style extent) hscan
    refine ⟨hlength, ⟨h.admitted, h.apart, ?_⟩, ?_⟩
    · intro reserved hreserved other hother hrole hdata
      have hmem := List.mem_filter.mpr ⟨hreserved, hrole⟩
      rw [h.reserved, Option.mem_toList] at hmem
      obtain ⟨hrange, hle⟩ := hfirst reserved hmem
      exact (h.firstData _ hrange.2.2).mp hle other hother hdata
    · rw [dataOfExtent, ← List.filter_filter, h.selected, hselected]
      exact List.filter_cons_of_pos (h.data part hselected)
  · rintro ⟨hlength, hlayout, hpart⟩
    have hmem : part ∈ dataOfExtent style extent entries := hpart ▸ List.mem_singleton_self part
    obtain ⟨hused, hboth⟩ := List.mem_filter.mp hmem
    obtain ⟨hdata, hrange⟩ := Bool.and_eq_true_iff.mp hboth
    have hstyle := style_of_isData hdata
    have hvalid : ValidRange extent.startingOffset extent.extentLength := by
      have hvalid := (hlayout.admitted part hused).range
      simp only [PartitionInformation.hasRange, Bool.and_eq_true, decide_eq_true_eq] at hrange
      rwa [hrange.1, hrange.2] at hvalid
    obtain ⟨scan, hscan⟩ := @Scanned.entries_succeed _ _ _ hstyle rfl entries [] {}
      (scanned_nil style extent) hlayout.admitted hlayout.apart fun other hother hsame =>
        hlayout.eq_of_hasRange hused hother hrange hsame ▸ hdata
    have h : Scanned style extent (entries.filter PartitionInformation.used) scan :=
      @Scanned.entries _ _ _ hstyle rfl entries [] {} scan (scanned_nil style extent) hscan
    refine ⟨(), ⟨⟨hstyle, ?_⟩, hlength⟩, _, ⟨hvalid, rfl⟩, scan, hscan, ?_, ?_⟩
    · cases entries with
      | nil => cases hused
      | cons => rfl
    · have hmem := List.mem_filter.mpr ⟨hused, hrange⟩
      rwa [h.selected, Option.mem_toList] at hmem
    · intro reserved hreserved
      rw [Option.mem_def, ← Option.mem_toList, ← h.reserved] at hreserved
      obtain ⟨hmem, hrole⟩ := List.mem_filter.mp hreserved
      have hrange := (h.admitted reserved hmem).range
      exact ⟨hrange, (h.firstData _ hrange.2.2).mpr fun other hother =>
        hlayout.reservedFirst reserved hmem other hother hrole⟩

theorem DataLayout.perm {style : UInt32} {used used' : List PartitionInformation}
    (h : DataLayout style used) (hperm : used.Perm used') : DataLayout style used' where
  admitted part hpart := h.admitted part (hperm.mem_iff.mpr hpart)
  apart := (hperm.pairwise_iff fun hapart => symm hapart).mp h.apart
  reservedFirst part hpart other hother :=
    h.reservedFirst part (hperm.mem_iff.mpr hpart) other (hperm.mem_iff.mpr hother)

/-- What is accepted for some order of the entries is accepted for every other. -/
theorem requirePublisherDataPartition_perm {style : UInt32}
    {entries entries' : List PartitionInformation} {extent : DiskExtent}
    {part : PartitionInformation} (hperm : entries.Perm entries')
    (h : requirePublisherDataPartition style entries extent = .ok part) :
    requirePublisherDataPartition style entries' extent = .ok part := by
  obtain ⟨hlength, hlayout, hpart⟩ := requirePublisherDataPartition_eq_ok.mp h
  refine requirePublisherDataPartition_eq_ok.mpr ⟨hperm.length_eq ▸ hlength,
    hlayout.perm (hperm.filter _), ?_⟩
  have hdata : (dataOfExtent style extent entries).Perm (dataOfExtent style extent entries') :=
    (hperm.filter _).filter _
  rw [hpart] at hdata
  exact List.singleton_perm.mp hdata |>.symm

/--
A partition is returned exactly if the layout has at most 128 entries, those with a length make up a
layout for data, and it is the one data partition that has the range of the extent. The entries may
stand in any order.
-/
theorem data_partition_selected_iff (style : UInt32) (entries : List PartitionInformation)
    (extent : DiskExtent) :
    (∀ part, requirePublisherDataPartition style entries extent = .ok part ↔
      entries.length ≤ 128 ∧ DataLayout style (entries.filter PartitionInformation.used) ∧
      dataOfExtent style extent entries = [part]) ∧
    ∀ entries', entries.Perm entries' →
      (requirePublisherDataPartition style entries' extent).toOption =
        (requirePublisherDataPartition style entries extent).toOption := by
  refine ⟨fun part => requirePublisherDataPartition_eq_ok, fun entries' hperm => ?_⟩
  refine Option.ext fun part => ?_
  rw [Json.toOption_eq_some, Json.toOption_eq_some]
  exact ⟨requirePublisherDataPartition_perm hperm.symm, requirePublisherDataPartition_perm hperm⟩

/-- A partition of a GPT disk. -/
def gptPartition (number : UInt32) (offset length : Int) (type : Guid) : PartitionInformation :=
  { partitionStyle := partitionStyleGpt, startingOffset := offset, partitionLength := length
    partitionNumber := number, gptPartitionType := type, gptAttributes := 0
    mbrPartitionType := 0, mbrBootIndicator := false }

/-- The usual layout of a data disk is accepted with the reserved partition listed last, too. -/
theorem reserved_listed_last_accepted :
    requirePublisherDataPartition partitionStyleGpt
      [gptPartition 2 17825792 517996544 basicData, gptPartition 1 1048576 16777216
        microsoftReserved]
      ⟨17825792, 517996544⟩ = .ok (gptPartition 2 17825792 517996544 basicData) := by
  have hlisted : requirePublisherDataPartition partitionStyleGpt
      [gptPartition 1 1048576 16777216 microsoftReserved, gptPartition 2 17825792 517996544
        basicData]
      ⟨17825792, 517996544⟩ = .ok (gptPartition 2 17825792 517996544 basicData) :=
    Json.toOption_eq_some.mp (by decide +kernel)
  have hsame := (data_partition_selected_iff partitionStyleGpt _ ⟨17825792, 517996544⟩).2 _
    (List.Perm.swap (gptPartition 2 17825792 517996544 basicData)
      (gptPartition 1 1048576 16777216 microsoftReserved) [])
  rw [hlisted] at hsame
  exact Json.toOption_eq_some.mp hsame

end Usk.Windows
