import UniversalSetup.Archive.Zip

/-!
# Nothing wraps around

An inspection never leaves the range of `std::uint64_t`: every sum, difference and product that
`inspect_zip` computes is guarded by a check before it, or bounded by the sizes that the request
parser and the file system allow. So the code computes the same with machine arithmetic and with
arithmetic that refuses to wrap around, on every file.
-/

namespace Usk.Archive

open Json (Result demand demand_eq_ok bind_eq_ok)
open Arith (bind_congr wrapping checked wrapping_add wrapping_sub wrapping_mul)

variable {data central : Bytes} {offset n centralOffset eocdOffset : Nat} {source : StableFile}
  {budgets : Budgets} {record : CentralRecord}

/-! ## Numbers out of the file -/

theorem little16_lt (h : little16 data offset = .ok n) : n < 2 ^ 16 := by
  unfold little16 at h
  split at h
  · next a b rest hd =>
    cases h
    have ha := a.toNat_lt
    have hb := b.toNat_lt
    omega
  · cases h

theorem little32_lt (h : little32 data offset = .ok n) : n < 2 ^ 32 := by
  unfold little32 at h
  split at h
  · next a b c d rest hd =>
    cases h
    have ha := a.toNat_lt
    have hb := b.toNat_lt
    have hc := c.toNat_lt
    have hd := d.toNat_lt
    omega
  · cases h

theorem little64_lt (h : little64 data offset = .ok n) : n < 2 ^ 64 := by
  simp only [little64, bind_eq_ok] at h
  obtain ⟨low, hlow, high, hhigh, h⟩ := h
  cases h
  have h1 := little32_lt hlow
  have h2 := little32_lt hhigh
  omega

theorem read_eq_ok {size : Nat} :
    source.read offset size = .ok data ↔
      offset + size ≤ source.content.length ∧ data = (source.content.drop offset).take size := by
  simp only [StableFile.read, source.sized, bind_eq_ok, demand_eq_ok, Bool.and_eq_true,
    decide_eq_true_eq, exists_const]
  constructor
  · rintro ⟨⟨h1, h2⟩, h⟩
    cases h
    exact ⟨by omega, rfl⟩
  · rintro ⟨h, rfl⟩
    exact ⟨⟨by omega, by omega⟩, rfl⟩

/-! ## End records -/

theorem readLocator_exact (source : StableFile) (h : eocdOffset < 2 ^ 64) :
    readLocator wrapping source eocdOffset = readLocator checked source eocdOffset := by
  unfold readLocator
  split
  · next h20 => rw [wrapping_sub h h20]
  · rfl

theorem le_of_readLocator {A : Arith} {locator : Bytes}
    (h : readLocator A source eocdOffset = .ok (some locator)) : 20 ≤ eocdOffset := by
  unfold readLocator at h
  split at h
  · next h20 => exact h20
  · cases h

theorem zip64EndRecord_exact (source : StableFile) (h : eocdOffset < 2 ^ 64) (h20 : 20 ≤ eocdOffset)
    (locator : Bytes) (classic : EndRecord) :
    zip64EndRecord wrapping source eocdOffset locator classic =
      zip64EndRecord checked source eocdOffset locator classic := by
  unfold zip64EndRecord
  refine bind_congr fun disk _ => bind_congr fun disks _ => bind_congr fun _ _ =>
    bind_congr fun zip64Offset hoff => ?_
  have hoff := little64_lt hoff
  rw [wrapping_sub h h20]
  refine bind_congr fun locatorOffset hloc => bind_congr fun _ hle => ?_
  obtain ⟨-, hloc⟩ := Arith.checked_sub.mp hloc
  rw [demand_eq_ok, decide_eq_true_eq] at hle
  rw [wrapping_sub (by omega) hle]
  refine bind_congr fun room hroom => bind_congr fun _ h56 => bind_congr fun zip64 _ =>
    bind_congr fun recordSize _ => bind_congr fun signature _ => bind_congr fun _ hsize => ?_
  -- the record lies before the locator, so its end cannot leave the range
  obtain ⟨-, hroom⟩ := Arith.checked_sub.mp hroom
  rw [demand_eq_ok, decide_eq_true_eq] at h56
  rw [demand_eq_ok, Bool.and_eq_true, beq_iff_eq, beq_iff_eq] at hsize
  rw [wrapping_add (by omega)]
  refine bind_congr fun headerEnd hend => ?_
  obtain ⟨-, hend⟩ := Arith.checked_add.mp hend
  rw [wrapping_add (by omega)]

theorem effectiveEndRecord_exact (source : StableFile) (h : eocdOffset < 2 ^ 64)
    (classic : EndRecord) :
    effectiveEndRecord wrapping source eocdOffset classic =
      effectiveEndRecord checked source eocdOffset classic := by
  unfold effectiveEndRecord
  rw [readLocator_exact source h]
  refine bind_congr fun found hfound => ?_
  cases found with
  | none => rfl
  | some locator => exact zip64EndRecord_exact source h (le_of_readLocator hfound) locator classic

theorem checkCentralDirectory_exact (budgets : Budgets) (record : EndRecord) {centralEnd : Nat}
    (h : centralEnd < 2 ^ 64) :
    checkCentralDirectory wrapping budgets record centralEnd =
      checkCentralDirectory checked budgets record centralEnd := by
  unfold checkCentralDirectory
  refine bind_congr fun _ hbounds => ?_
  simp only [demand_eq_ok, Bool.and_eq_true, decide_eq_true_eq] at hbounds
  rw [wrapping_sub h hbounds.2]
  refine bind_congr fun room hroom => bind_congr fun _ hsize => ?_
  obtain ⟨-, hroom⟩ := Arith.checked_sub.mp hroom
  rw [demand_eq_ok, decide_eq_true_eq] at hsize
  rw [wrapping_add (by omega)]

theorem findEndRecord_lt {tail : Bytes} : ∀ {n eocd : Nat},
    findEndRecord tail n = .ok (some eocd) → eocd < n
  | 0, _, h => by cases h
  | n + 1, eocd, h => by
    simp only [findEndRecord, bind_eq_ok] at h
    obtain ⟨signature, -, h⟩ := h
    split at h
    · rw [bind_eq_ok] at h
      obtain ⟨commentLength, -, h⟩ := h
      split at h
      · cases h
        exact Nat.lt_succ_self _
      · exact Nat.lt_succ_of_lt (findEndRecord_lt h)
    · exact Nat.lt_succ_of_lt (findEndRecord_lt h)

theorem locateEndRecord_exact (h : source.identity.sizeBytes ≤ maxArchiveBytes) :
    locateEndRecord wrapping source = locateEndRecord checked source := by
  have hsize : source.identity.sizeBytes < 2 ^ 64 := by
    rw [maxArchiveBytes] at h
    omega
  unfold locateEndRecord
  dsimp only
  rw [wrapping_sub hsize (Nat.min_le_left _ _)]
  refine bind_congr fun tailOffset htail => bind_congr fun tail hread =>
    bind_congr fun found hfound => ?_
  cases found with
  | none => rfl
  | some eocd =>
    refine bind_congr fun classic _ => ?_
    have heocd := findEndRecord_lt hfound
    obtain ⟨hle, hoff⟩ := Arith.checked_sub.mp htail
    obtain ⟨hrange, hdata⟩ := read_eq_ok.mp hread
    have hlen : tail.length ≤ min source.identity.sizeBytes (22 + 65535) := by
      rw [hdata]
      exact List.length_take_le _ _
    split at heocd
    · rw [wrapping_add (by omega)]
    · exact absurd heocd (Nat.not_lt_zero _)

/-! ## Entries -/

theorem addChecked_exact {total value maximum : Nat} (h : maximum < 2 ^ 64) (name : String) :
    addChecked wrapping total value maximum name = addChecked checked total value maximum name := by
  unfold addChecked
  refine bind_congr fun _ hvalue => ?_
  rw [demand_eq_ok, decide_eq_true_eq] at hvalue
  rw [wrapping_sub h hvalue]
  refine bind_congr fun room hroom => bind_congr fun _ htotal => ?_
  obtain ⟨-, hroom⟩ := Arith.checked_sub.mp hroom
  rw [demand_eq_ok, decide_eq_true_eq] at htotal
  exact wrapping_add (by omega)

theorem checkRatio_exact (hratio : budgets.maxRatio ≤ maxRequestRatio)
    (h : record.compressed ≤ maxArchiveBytes) :
    checkRatio wrapping budgets record = checkRatio checked budgets record := by
  unfold checkRatio
  split
  · rfl
  · have hmul : record.compressed * budgets.maxRatio ≤ maxArchiveBytes * maxRequestRatio :=
      Nat.mul_le_mul h hratio
    have hbound : maxArchiveBytes * maxRequestRatio < 2 ^ 64 := by decide
    rw [wrapping_mul (by omega)]

theorem account_exact (hb : budgets.Bounded) (record : CentralRecord) (s : Scan) :
    account wrapping budgets record s = account checked budgets record s := by
  have htotal : budgets.maxUncompressedBytes < 2 ^ 64 :=
    Nat.lt_of_le_of_lt hb.uncompressedBytes (by decide)
  unfold account
  split
  · rfl
  · refine bind_congr fun _ hsizes => ?_
    rw [demand_eq_ok, Bool.and_eq_true, decide_eq_true_eq, decide_eq_true_eq] at hsizes
    rw [checkRatio_exact hb.ratio hsizes.2]
    refine bind_congr fun _ _ => ?_
    rw [addChecked_exact htotal]
    refine bind_congr fun uncompressedBytes _ => ?_
    rw [addChecked_exact (by decide)]

theorem name_length_lt {position : Nat} (h : centralRecord central position = .ok record) :
    record.name.length < 2 ^ 16 := by
  simp only [centralRecord, bind_eq_ok] at h
  obtain ⟨_, -, _, -, _, -, _, -, _, -, _, -, _, -, nameSize, hname, _, -, _, -, _, -, _, -, _, -,
    _, -, _, -, _, -, zip64, -, _, -, h⟩ := h
  cases h
  exact Nat.lt_of_le_of_lt (List.length_take_le _ _) (little16_lt hname)

theorem localEntry_exact (h : centralOffset < 2 ^ 63) (hname : record.name.length < 2 ^ 16)
    (normalized : Bytes) :
    localEntry wrapping source centralOffset record normalized =
      localEntry checked source centralOffset record normalized := by
  unfold localEntry
  refine bind_congr fun _ hlt => ?_
  rw [demand_eq_ok, decide_eq_true_eq] at hlt
  rw [wrapping_sub (by omega) (Nat.le_of_lt hlt)]
  refine bind_congr fun before hbefore => bind_congr fun _ h30 => bind_congr fun localHeader _ =>
    bind_congr fun _ _ => bind_congr fun localExtraSize hextra => ?_
  obtain ⟨-, hbefore⟩ := Arith.checked_sub.mp hbefore
  rw [demand_eq_ok, decide_eq_true_eq] at h30
  have hextra := little16_lt hextra
  rw [wrapping_add (by omega)]
  refine bind_congr fun variableSize hvar => ?_
  obtain ⟨-, hvar⟩ := Arith.checked_add.mp hvar
  rw [wrapping_sub (by omega) h30]
  refine bind_congr fun room hroom => bind_congr fun _ hfits => ?_
  obtain ⟨-, hroom⟩ := Arith.checked_sub.mp hroom
  rw [demand_eq_ok, decide_eq_true_eq] at hfits
  rw [wrapping_add (by omega)]
  refine bind_congr fun bodyOffset hbody => bind_congr fun _ _ => bind_congr fun _ _ =>
    bind_congr fun sizes _ => bind_congr fun _ _ => bind_congr fun bodyOffset' hbody' => ?_
  obtain ⟨-, hbody'⟩ := Arith.checked_add.mp hbody'
  rw [wrapping_add (by omega)]
  refine bind_congr fun dataOffset hdata => bind_congr fun _ hle => ?_
  obtain ⟨-, hdata⟩ := Arith.checked_add.mp hdata
  rw [demand_eq_ok, decide_eq_true_eq] at hle
  rw [wrapping_sub (by omega) hle]
  refine bind_congr fun rest hrest => bind_congr fun _ hcomp => ?_
  obtain ⟨-, hrest⟩ := Arith.checked_sub.mp hrest
  rw [demand_eq_ok, decide_eq_true_eq] at hcomp
  rw [wrapping_add (by omega)]

theorem scanEntry_exact (hb : budgets.Bounded) (h : centralOffset < 2 ^ 63) (s : Scan) :
    scanEntry wrapping source budgets central centralOffset s =
      scanEntry checked source budgets central centralOffset s := by
  unfold scanEntry
  refine bind_congr fun record hrecord => bind_congr fun normalized _ => ?_
  rw [account_exact hb]
  refine bind_congr fun counted _ => bind_congr fun paths _ => ?_
  rw [localEntry_exact h (name_length_lt hrecord)]

theorem scanEntries_exact {host : Host} (hb : budgets.Bounded) (h : centralOffset < 2 ^ 63)
    (n : Nat) : ∀ s : Scan,
    scanEntries wrapping host source budgets central centralOffset n s =
      scanEntries checked host source budgets central centralOffset n s := by
  induction n with
  | zero => exact fun s => rfl
  | succ n ih =>
    intro s
    unfold scanEntries
    refine bind_congr fun _ _ => ?_
    rw [scanEntry_exact hb h]
    exact bind_congr fun next _ => ih next

/-! ## The inspection -/

/-- The end record lies inside the file. -/
theorem locateEndRecord_le {found : EndRecord × Nat}
    (h : locateEndRecord checked source = .ok found) : found.2 + 22 ≤ source.content.length := by
  simp only [locateEndRecord, bind_eq_ok] at h
  obtain ⟨tailOffset, htail, tail, hread, position, hfound, h⟩ := h
  cases position with
  | none => cases h
  | some eocd =>
    simp only [bind_eq_ok] at h
    obtain ⟨classic, -, eocdOffset, hadd, h⟩ := h
    cases h
    obtain ⟨-, hadd⟩ := Arith.checked_add.mp hadd
    obtain ⟨-, htail⟩ := Arith.checked_sub.mp htail
    obtain ⟨hrange, hdata⟩ := read_eq_ok.mp hread
    have hlen : tail.length ≤ min source.identity.sizeBytes (22 + 65535) := by
      rw [hdata]
      exact List.length_take_le _ _
    have heocd := findEndRecord_lt hfound
    split at heocd
    · dsimp only
      omega
    · exact absurd heocd (Nat.not_lt_zero _)

theorem effectiveEndRecord_le {classic : EndRecord} {found : EndRecord × Nat}
    (h : effectiveEndRecord checked source eocdOffset classic = .ok found) :
    found.2 ≤ eocdOffset := by
  simp only [effectiveEndRecord, bind_eq_ok] at h
  obtain ⟨locator, -, h⟩ := h
  cases locator with
  | none =>
    dsimp only at h
    split at h
    · cases h
    · cases h
      exact Nat.le_refl _
  | some locator =>
    simp only [zip64EndRecord, bind_eq_ok] at h
    obtain ⟨_, -, _, -, _, -, zip64Offset, -, locatorOffset, hloc, _, hle, _, -, _, -, _, -, _, -,
      _, -, _, -, _, -, _, -, _, -, _, -, _, -, _, -, _, -, _, -, _, -, _, -, _, -, _, -, h⟩ := h
    cases h
    obtain ⟨-, hloc⟩ := Arith.checked_sub.mp hloc
    rw [demand_eq_ok, decide_eq_true_eq] at hle
    dsimp only
    omega

theorem checkCentralDirectory_le {record : EndRecord} {centralEnd : Nat} {u : Unit}
    (h : checkCentralDirectory checked budgets record centralEnd = .ok u) :
    record.centralOffset + record.centralSize = centralEnd := by
  simp only [checkCentralDirectory, bind_eq_ok] at h
  obtain ⟨_, -, room, -, _, -, stop, hstop, h⟩ := h
  obtain ⟨-, hstop⟩ := Arith.checked_add.mp hstop
  simp only [demand_eq_ok, Bool.and_eq_true, beq_iff_eq] at h
  exact hstop.trans h.1

theorem inspectSource_exact (host : Host) (source : StableFile) (hb : budgets.Bounded) :
    inspectSource wrapping host source budgets = inspectSource checked host source budgets := by
  unfold inspectSource
  refine bind_congr fun _ hsize => bind_congr fun sourceSha256 _ => ?_
  simp only [demand_eq_ok, Bool.and_eq_true, decide_eq_true_eq] at hsize
  have hcontent : source.content.length ≤ 2 ^ 40 := source.sized ▸ hsize.2
  rw [locateEndRecord_exact hsize.2]
  refine bind_congr fun classic hclassic => ?_
  have hclassic := locateEndRecord_le hclassic
  rw [effectiveEndRecord_exact source (by omega)]
  refine bind_congr fun effective heffective => ?_
  have heffective := effectiveEndRecord_le heffective
  dsimp only
  rw [checkCentralDirectory_exact budgets effective.1 (by omega)]
  refine bind_congr fun _ hcentral => bind_congr fun central _ => ?_
  have hcentral := checkCentralDirectory_le hcentral
  rw [scanEntries_exact hb (by omega)]

/-- No inspection wraps around anywhere. -/
theorem inspectZip_exact (host : Host) (request : Bytes) :
    inspectZip wrapping host request = inspectZip checked host request := by
  unfold inspectZip
  refine bind_congr fun parsed hparsed => bind_congr fun source _ => ?_
  exact inspectSource_exact host source (parseArchiveRequest_bounded hparsed)

end Usk.Archive
