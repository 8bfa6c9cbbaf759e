import UniversalSetup.Maintenance.Machine
import UniversalSetup.Maintenance.Writer

/-!
# A written record is read back

The text that `persist` writes decodes to the record it was made of, provided that the strings in
its details are valid UTF-8. Depth, number of values and lengths need no such proviso: the checks of
the writer keep every record within the limits of the reader.
-/

namespace Usk.Maintenance

open Json Transaction

variable {n : Nat} {operation text s : Bytes} {kind : EffectKind}

/-- A string that the record reader admits. -/
def Admitted (s : Bytes) : Prop :=
  s.length ≤ recordLimits.maxStringBytes ∧ validUtf8 s = true

/-- A value of bounded size whose strings the record reader admits. -/
structure Storable (d c : Nat) (v : Value) : Prop where
  wellFormed : WellFormed v
  within : Within d c v
  strings : AllStrings Admitted v

/-! ## Strings -/

theorem admitted_of_shortAscii (h : ShortAscii n s) (hn : decide (n ≤ 128) = true) : Admitted s :=
  ⟨h.1.trans ((of_decide_eq_true hn).trans (by decide)), validUtf8_of_ascii h.2⟩

theorem admitted_identifier (h : validIdentifier s = true) : Admitted s :=
  admitted_of_shortAscii (shortAscii_identifier h) rfl

theorem admitted_sha256 (h : validSha256 s = true) : Admitted s :=
  admitted_of_shortAscii (shortAscii_sha256 h) rfl

theorem admitted_nativeIdentity (h : nativeIdentity s = true) : Admitted s :=
  admitted_of_shortAscii (shortAscii_nativeIdentity h) rfl

theorem admitted_ascii (s : String)
    (h : (decide ((ascii s).length ≤ 64) && (ascii s).all fun c => decide (c ≤ 0x7f)) = true) :
    Admitted (ascii s) :=
  admitted_of_shortAscii (shortAscii_literal s h) rfl

theorem admitted_kind (k : EffectKind) : Admitted k.name := by
  cases k <;> exact admitted_ascii _ (by decide)

/-! ## Values -/

theorem Storable.mono {d c d' c' : Nat} {v : Value} (h : Storable d c v) (hd : d ≤ d')
    (hc : c ≤ c') : Storable d' c' v :=
  { h with within := h.within.mono hd hc }

theorem storable_null : Storable 0 1 .null :=
  ⟨trivial, ⟨by decide, by decide⟩, trivial⟩

theorem storable_unsigned (n : UInt64) : Storable 0 1 (.unsigned n) :=
  ⟨trivial, within_unsigned n, trivial⟩

theorem storable_string (h : Admitted s) : Storable 0 1 (.string s) :=
  ⟨trivial, within_string s, h⟩

theorem storable_optional (h : ¬s.isEmpty = true → Admitted s) :
    Storable 0 1 (if s.isEmpty then .null else .string s) := by
  split
  · exact storable_null
  · next hne => exact storable_string (h hne)

theorem storable_ofList {d c : Nat} {ms : List (Bytes × Value)} (hnd : (ByteMap.keys ms).Nodup)
    (h : ∀ m ∈ ms, Admitted m.1 ∧ Storable d c m.2) :
    Storable (d + 1) (1 + ms.length * c) (.object (ByteMap.ofList ms)) := by
  have hperm := ByteMap.ofList_perm hnd
  exact ⟨wellFormed_ofList hnd fun m hm => (h m hm).2.wellFormed,
    within_object hperm.length_eq.le fun m hm => (h m (hperm.mem_iff.mp hm)).2.within,
    allStrings_ofList hnd fun m hm => ⟨(h m hm).1, (h m hm).2.strings⟩⟩

/-! ## The record -/

namespace EffectJournal

variable {j : EffectJournal} {phase : Bytes} {details : Value}

/-- The members of a record without its digest, as `persist` lists them. -/
def bodyMembers (j : EffectJournal) (phase : Bytes) (details : Value) : List (Bytes × Value) :=
  [(ascii "schema", .string (ascii "usk.maintenance_effect_record.v1")),
   (ascii "sequence", .unsigned (UInt64.ofNat j.sequence)),
   (ascii "transaction_id", .string j.spec.transactionId),
   (ascii "source_digest", .string j.sourceDigest),
   (ascii "phase", .string phase),
   (ascii "details", details),
   (ascii "previous_digest", if j.lastDigest.isEmpty then .null else .string j.lastDigest)]

/-- All members of a record. -/
def allMembers (j : EffectJournal) (phase : Bytes) (details : Value) : List (Bytes × Value) :=
  j.bodyMembers phase details ++ [(ascii "digest", .string (j.recordHash phase details))]

/-- The value whose text `persist` writes. -/
def recordValue (j : EffectJournal) (phase : Bytes) (details : Value) : Value :=
  .object (ByteMap.ofList (j.allMembers phase details))

theorem recordText_eq :
    j.recordText phase details = canonical (j.recordValue phase details) ++ [0x0a] := by
  rw [recordText, recordValue, allMembers, ofList_concat]
  rfl

theorem keys_allMembers : ByteMap.keys (j.allMembers phase details) =
    ["schema", "sequence", "transaction_id", "source_digest", "phase", "details",
      "previous_digest", "digest"].map ascii :=
  rfl

theorem nodup_allMembers : (ByteMap.keys (j.allMembers phase details)).Nodup := by
  rw [keys_allMembers]
  decide

theorem recordBody_recordValue :
    recordBody (ByteMap.ofList (j.allMembers phase details)) =
      .object (j.recordMembers phase details) := by
  have hnone : ByteMap.find (j.recordMembers phase details) (ascii "digest") = none := by
    have hnd : (ByteMap.keys (j.bodyMembers phase details)).Nodup := by
      show (["schema", "sequence", "transaction_id", "source_digest", "phase", "details",
        "previous_digest"].map ascii).Nodup
      decide
    show ByteMap.find (ByteMap.ofList (j.bodyMembers phase details)) (ascii "digest") = none
    rw [ByteMap.find_ofList hnd]
    rfl
  rw [recordBody, allMembers, ofList_concat]
  exact congrArg Value.object (ByteMap.erase_insert hnone _)

/-- What the writer knows of itself while it is usable. -/
structure Sound (j : EffectJournal) : Prop where
  identifier : validIdentifier j.spec.transactionId = true
  source : validSha256 j.sourceDigest = true
  last : j.lastDigest = [] ∨ validSha256 j.lastDigest = true
  room : j.sequence < 2 ^ 64

theorem recordHash_valid : validSha256 (j.recordHash phase details) = true :=
  validSha256_sha256 _

theorem wellFormed_recordValue (hd : WellFormed details) :
    WellFormed (j.recordValue phase details) := by
  refine wellFormed_ofList nodup_allMembers fun m hm => ?_
  simp only [allMembers, bodyMembers, List.cons_append, List.nil_append, List.mem_cons,
    List.not_mem_nil, or_false] at hm
  rcases hm with rfl | rfl | rfl | rfl | rfl | rfl | rfl | rfl
  · trivial
  · trivial
  · trivial
  · trivial
  · trivial
  · exact hd
  · dsimp only
    split <;> trivial
  · trivial

theorem admitted_members (hj : j.Sound) (hp : Admitted phase)
    (hd : AllStrings Admitted details) :
    ∀ m ∈ j.allMembers phase details, Admitted m.1 ∧ AllStrings Admitted m.2 := by
  have hlast : ¬j.lastDigest.isEmpty = true → Admitted j.lastDigest := by
    intro hne
    rcases hj.last with h | h
    · rw [h] at hne
      exact absurd rfl hne
    · exact admitted_sha256 h
  intro m hm
  simp only [allMembers, bodyMembers, List.cons_append, List.nil_append, List.mem_cons,
    List.not_mem_nil, or_false] at hm
  rcases hm with rfl | rfl | rfl | rfl | rfl | rfl | rfl | rfl
  · exact ⟨admitted_ascii _ (by decide), admitted_ascii _ (by decide)⟩
  · exact ⟨admitted_ascii _ (by decide), trivial⟩
  · exact ⟨admitted_ascii _ (by decide), admitted_identifier hj.identifier⟩
  · exact ⟨admitted_ascii _ (by decide), admitted_sha256 hj.source⟩
  · exact ⟨admitted_ascii _ (by decide), hp⟩
  · exact ⟨admitted_ascii _ (by decide), hd⟩
  · exact ⟨admitted_ascii _ (by decide), (storable_optional hlast).strings⟩
  · exact ⟨admitted_ascii _ (by decide), admitted_sha256 recordHash_valid⟩

theorem allow_recordValue (hj : j.Sound) (hp : Admitted phase) (hd : Storable 11 248 details) :
    recordLimits.Allow (j.recordValue phase details) := by
  have hprev : count (if j.lastDigest.isEmpty then .null else .string j.lastDigest) = 1 ∧
      depth (if j.lastDigest.isEmpty then .null else .string j.lastDigest) = 0 := by
    split <;> exact ⟨rfl, rfl⟩
  refine ⟨?_, ?_, allStrings_ofList nodup_allMembers (admitted_members hj hp hd.strings)⟩
  · have hdepth := hd.within.1
    rw [recordValue, depth_ofList nodup_allMembers]
    simp only [allMembers, bodyMembers, List.cons_append, List.nil_append, depthMembers, hprev.2,
      depth]
    show _ ≤ 12
    omega
  · have hcount := hd.within.2
    rw [recordValue, count_ofList nodup_allMembers]
    simp only [allMembers, bodyMembers, List.cons_append, List.nil_append, countMembers, hprev.1,
      count]
    show _ ≤ 256
    omega

/-- The text that `persist` writes decodes to the value it was made of. -/
theorem decodes_recordText (hj : j.Sound) (hp : Admitted phase) (hd : Storable 11 248 details)
    (hlen : (j.recordText phase details).length ≤ maximumRecordBytes) :
    Decodes (j.recordText phase details) (j.recordValue phase details) := by
  have hnd := @nodup_allMembers j phase details
  refine ⟨hlen, ?_, ?_, recordText_eq.symm, ⟨_, rfl, ?_⟩, ?_⟩
  · have hlen' := hlen
    rw [recordText_eq] at hlen' ⊢
    exact (parse_encodes_line (encodes_canonical (wellFormed_recordValue hd.wellFormed))).1
      ⟨hlen', allow_recordValue hj hp hd⟩
  · exact exactKeys_ofList hnd (by rw [keys_allMembers])
  · rw [recordBody_recordValue, getString_eq_ok]
    exact get_ofList hnd rfl
  · rw [getString_eq_ok]
    exact get_ofList hnd rfl

theorem recordOf_recordValue {p : Phase} (hj : j.Sound)
    (hp : Phase.ofFields phase details = .ok p) :
    recordOf (j.recordValue phase details) =
      .ok { sequence := j.sequence, transactionId := j.spec.transactionId,
            sourceDigest := j.sourceDigest
            previous := if j.lastDigest.isEmpty then none else some j.lastDigest
            digest := j.recordHash phase details, phase := p } := by
  have hnd := @nodup_allMembers j phase details
  have hseq : (UInt64.ofNat j.sequence).toNat = j.sequence := by
    rw [UInt64.toNat_ofNat']
    exact Nat.mod_eq_of_lt hj.room
  simp only [recordOf, bind_eq_ok, pure, Except.pure, Except.ok.injEq, getString_eq_ok]
  refine ⟨_, get_ofList hnd rfl, _, rfl, _, get_ofList hnd rfl, _, get_ofList hnd rfl, _,
    get_ofList hnd rfl, if j.lastDigest.isEmpty then none else some j.lastDigest, ?_, _,
    get_ofList hnd rfl, _, get_ofList hnd rfl, p, hp, _, get_ofList hnd rfl, by rw [hseq]⟩
  split <;> rfl

end EffectJournal

/-! ## How large checked details are -/

theorem allStrings_get_string {v : Value} {u : Unit} : ∀ {keys : List String},
    allStrings v keys = .ok u → ∀ key ∈ keys, ∃ s, v.get key = .ok (.string s)
  | [], _, _, h => absurd h List.not_mem_nil
  | key :: rest, h, k, hk => by
    rw [allStrings, bind_eq_ok] at h
    obtain ⟨s, hs, h⟩ := h
    rcases List.mem_cons.mp hk with rfl | hk
    · exact ⟨s, getString_eq_ok.mp hs⟩
    · exact allStrings_get_string h k hk

theorem stringMembers_within {u : Unit} : ∀ {o : Object}, stringMembers o = .ok u →
    ∀ m ∈ o, Within 0 1 m.2
  | [], _, _, h => absurd h List.not_mem_nil
  | member :: rest, h, m, hm => by
    rw [stringMembers, bind_eq_ok] at h
    obtain ⟨s, hs, h⟩ := h
    rcases List.mem_cons.mp hm with rfl | hm
    · rw [asString_eq_ok] at hs
      rw [hs]
      exact within_string s
    · exact stringMembers_within h m hm

theorem validateFile_within {details : Value} {u : Unit} (hd : WellFormed details)
    (h : validateFile operation kind details = .ok u) : Within 1 6 details := by
  simp only [validateFile, bind_eq_ok, demandString_eq_ok, getString_eq_ok, asUnsigned_eq_ok] at h
  obtain ⟨_, hf, p, hp, -, -, -, ⟨i, hi, -⟩, -, ⟨d, hd', -⟩, v, hv, n, rfl, -, -, -, -, hrole⟩ := h
  have hall : ∀ key ∈ ["relative_path", "native_identity", "sha256", "size_bytes"],
      ∃ w, details.get key = .ok w ∧ Within 0 1 w := by
    intro key hkey
    simp only [List.mem_cons, List.not_mem_nil, or_false] at hkey
    rcases hkey with rfl | rfl | rfl | rfl
    · exact ⟨_, hp, within_string p⟩
    · exact ⟨_, hi, within_string i⟩
    · exact ⟨_, hd', within_string d⟩
    · exact ⟨_, hv, within_unsigned n⟩
  split at hf
  · next hk =>
    rw [if_pos hk, demandString_eq_ok] at hrole
    obtain ⟨s, hs, -⟩ := hrole
    refine within_of_exactKeys (d := 0) (c := 1) hf hd fun key hkey => ?_
    rcases List.mem_append.mp hkey with hkey | hkey
    · exact hall key hkey
    · rw [List.mem_singleton.mp hkey]
      exact ⟨_, hs, within_string s⟩
  · exact (within_of_exactKeys hf hd hall).mono (Nat.le_refl 1) (by decide)

theorem validateRevision_within {revision : Value} {u : Unit} (hr : WellFormed revision)
    (h : validateRevision revision = .ok u) : Within 2 36 revision := by
  simp only [validateRevision, bind_eq_ok, demandString_eq_ok] at h
  obtain ⟨_, hf, _, hs, -, ⟨d, hd, -⟩, v, hv, _, hf', _, hs', ⟨d', hd', -⟩⟩ := h
  have hv' : Within 1 5 v := by
    refine within_of_exactKeys (d := 0) (c := 1) hf' (wellFormed_get hr hv) fun key hkey => ?_
    have hstr := allStrings_get_string hs'
    simp only [List.mem_cons, List.not_mem_nil, or_false] at hkey
    rcases hkey with rfl | rfl | rfl | rfl
    · obtain ⟨s, h⟩ := hstr "report_id" (by decide)
      exact ⟨_, h, within_string s⟩
    · exact ⟨_, hd', within_string d'⟩
    · obtain ⟨s, h⟩ := hstr "status" (by decide)
      exact ⟨_, h, within_string s⟩
    · obtain ⟨s, h⟩ := hstr "verified_at" (by decide)
      exact ⟨_, h, within_string s⟩
  refine within_of_exactKeys (d := 1) (c := 5) hf hr fun key hkey => ?_
  by_cases hlast : key = "last_verification"
  · subst hlast
    exact ⟨v, hv, hv'⟩
  by_cases hdigest : key = "ownership_manifest_digest"
  · subst hdigest
    exact ⟨_, hd, (within_string d).mono (by decide) (by decide)⟩
  · obtain ⟨s, h⟩ := allStrings_get_string hs key (by
      simp only [List.mem_cons, List.not_mem_nil, or_false] at hkey ⊢
      tauto)
    exact ⟨_, h, (within_string s).mono (by decide) (by decide)⟩

theorem validateInstalled_within {details : Value} {u : Unit} (hd : WellFormed details)
    (h : validateInstalled details = .ok u) : Within 3 109 details := by
  simp only [validateInstalled, bind_eq_ok, demandString_eq_ok] at h
  obtain ⟨o, -, _, hf, -, ⟨i, hi, -⟩, -, ⟨s, hs, -⟩, hrev⟩ := h
  have hall : ∀ key ∈ ["install_id", "state_digest"],
      ∃ w, details.get key = .ok w ∧ Within 2 36 w := by
    intro key hkey
    simp only [List.mem_cons, List.not_mem_nil, or_false] at hkey
    rcases hkey with rfl | rfl
    · exact ⟨_, hi, (within_string i).mono (by decide) (by decide)⟩
    · exact ⟨_, hs, (within_string s).mono (by decide) (by decide)⟩
  split at hrev
  · next hrevised =>
    rw [if_pos hrevised] at hf
    rw [bind_eq_ok] at hrev
    obtain ⟨w, hw, hrev⟩ := hrev
    refine within_of_exactKeys (d := 2) (c := 36) hf hd fun key hkey => ?_
    rcases List.mem_append.mp hkey with hkey | hkey
    · exact hall key hkey
    · rw [List.mem_singleton.mp hkey]
      exact ⟨w, hw, validateRevision_within (wellFormed_get hd hw) hrev⟩
  · next hrevised =>
    rw [if_neg hrevised, List.append_nil] at hf
    exact (within_of_exactKeys hf hd hall).mono (Nat.le_refl 3) (by decide)

theorem validateAudit_within {details : Value} {u : Unit} (hd : WellFormed details)
    (h : validateAudit details = .ok u) : Within 2 34 details := by
  simp only [validateAudit, bind_eq_ok, demandString_eq_ok] at h
  obtain ⟨o, -, _, hf, -, ⟨i, hi, -⟩, -, ⟨s, hs, -⟩, hrev⟩ := h
  have hall : ∀ key ∈ ["chain_id", "input_digest"],
      ∃ w, details.get key = .ok w ∧ Within 1 11 w := by
    intro key hkey
    simp only [List.mem_cons, List.not_mem_nil, or_false] at hkey
    rcases hkey with rfl | rfl
    · exact ⟨_, hi, (within_string i).mono (by decide) (by decide)⟩
    · exact ⟨_, hs, (within_string s).mono (by decide) (by decide)⟩
  split at hrev
  · next hcarried =>
    rw [if_pos hcarried] at hf
    simp only [bind_eq_ok, asObject_eq_ok] at hrev
    obtain ⟨w, hw, _, hf', members, rfl, _, hstr, -⟩ := hrev
    have hlen := length_of_exactKeys hf' (wellFormed_get hd hw)
    refine within_of_exactKeys (d := 1) (c := 11) hf hd fun key hkey => ?_
    rcases List.mem_append.mp hkey with hkey | hkey
    · exact hall key hkey
    · rw [List.mem_singleton.mp hkey]
      exact ⟨_, hw, within_object hlen (stringMembers_within hstr)⟩
  · next hcarried =>
    rw [if_neg hcarried, List.append_nil] at hf
    exact (within_of_exactKeys hf hd hall).mono (Nat.le_refl 2) (by decide)

theorem validateDetails_within {details : Value} {u : Unit} (hd : WellFormed details)
    (h : validateDetails operation kind details = .ok u) : Within 3 109 details := by
  cases kind with
  | backupFile => exact (validateFile_within hd h).mono (by decide) (by decide)
  | replaceFile => exact (validateFile_within hd h).mono (by decide) (by decide)
  | removeFile => exact (validateFile_within hd h).mono (by decide) (by decide)
  | writeInstalled => exact validateInstalled_within hd h
  | appendAudit => exact (validateAudit_within hd h).mono (by decide) (by decide)
  | removeDirectory =>
    simp only [validateDetails, validateDirectory, bind_eq_ok, demandString_eq_ok,
      getString_eq_ok] at h
    obtain ⟨_, hf, p, hp, -, -, r, hr, -, ⟨i, hi, -⟩, -⟩ := h
    refine (within_of_exactKeys (d := 0) (c := 1) hf hd fun key hkey => ?_).mono (by decide)
      (by decide)
    simp only [List.mem_cons, List.not_mem_nil, or_false] at hkey
    rcases hkey with rfl | rfl | rfl
    · exact ⟨_, hr, within_string r⟩
    · exact ⟨_, hp, within_string p⟩
    · exact ⟨_, hi, within_string i⟩
  | publishTarget =>
    simp only [validateDetails, bind_eq_ok, demandString_eq_ok] at h
    obtain ⟨_, hf, i, hi, -⟩ := h
    refine (within_of_exactKeys (d := 0) (c := 1) hf hd fun key hkey => ?_).mono (by decide)
      (by decide)
    rw [List.mem_singleton.mp hkey]
    exact ⟨_, hi, within_string i⟩
  | writeOwnership =>
    simp only [validateDetails, validateOwnership, bind_eq_ok, demandString_eq_ok] at h
    obtain ⟨_, hf, -, -, -, ⟨i, hi, -⟩, d, hd', -⟩ := h
    refine (within_of_exactKeys (d := 0) (c := 1) hf hd fun key hkey => ?_).mono (by decide)
      (by decide)
    simp only [List.mem_cons, List.not_mem_nil, or_false] at hkey
    rcases hkey with rfl | rfl
    · exact ⟨_, hi, within_string i⟩
    · exact ⟨_, hd', within_string d⟩

/-! ## Contexts -/

/-- What a validated context is: a canonical text within the limits of a context. -/
theorem validateContext_canonical {cwd : Path} {spec : TransactionSpec} {u : Unit}
    (h : validateContext cwd spec text = .ok u) :
    ∃ v, WellFormed v ∧ canonical v = text ∧ text.length ≤ 16384 ∧ contextLimits.Allow v ∧
      validIdentifier spec.transactionId = true := by
  simp only [validateContext, bind_eq_ok, demand_eq_ok, Bool.not_eq_true', Bool.or_eq_false_iff,
    decide_eq_false_iff_not, not_lt] at h
  obtain ⟨-, ⟨-, hlen⟩, v, hv, -, -, _, hbind, -⟩ := h
  simp only [validateContextBinding, bind_eq_ok, demand_eq_ok, beq_iff_eq,
    Bool.and_eq_true] at hbind
  obtain ⟨-, htext, -, -, -, -, -, -, -, -, -, -, -, -, -, ⟨⟨hid, -⟩, -⟩, -⟩ := hbind
  have hw := parse_wellFormed hv
  rw [← htext] at hv
  have hallow := ((parse_encodes (encodes_canonical hw)).eq_of_ok hv).1.2
  exact ⟨v, hw, htext, hlen, hallow, hid⟩

theorem validUtf8_of_validateContext {cwd : Path} {spec : TransactionSpec} {u : Unit}
    (h : validateContext cwd spec text = .ok u) : Admitted text := by
  obtain ⟨v, -, rfl, hlen, hallow, -⟩ := validateContext_canonical h
  exact ⟨hlen, validUtf8_canonical (hallow.2.2.mono fun s hs => hs.2)⟩

/-- The limits of a context are tighter than the default ones, so its digest exists. -/
theorem contextDigest_of_validateContext {cwd : Path} {spec : TransactionSpec} {u : Unit}
    (h : validateContext cwd spec text = .ok u) : contextDigest text = .ok (sha256 text) := by
  obtain ⟨v, hw, rfl, hlen, ⟨hd, hc, hs⟩, -⟩ := validateContext_canonical h
  have hallow : defaultLimits.Allow v :=
    ⟨hd.trans (by decide), hc.trans (by decide +kernel),
      hs.mono fun s hs => ⟨hs.1.trans (by decide +kernel), hs.2⟩⟩
  have hparse := (parse_encodes (encodes_canonical hw)).1 ⟨hlen.trans (by decide +kernel), hallow⟩
  rw [contextDigest, hparse]
  rfl

/-! ## The details of each phase -/

namespace EffectJournal

theorem storable_contextDetails {sourceContext identity : Bytes} (hc : Admitted sourceContext)
    (hi : Admitted identity) : Storable 11 248 (contextDetails sourceContext identity) := by
  refine (storable_ofList (d := 0) (c := 1) ?_ ?_).mono (by decide) (by simp)
  · show (["source_context", "directory_identity"].map ascii).Nodup
    decide
  · simp only [List.forall_mem_cons, List.not_mem_nil, false_implies, implies_true, and_true]
    exact ⟨⟨admitted_ascii _ (by decide), storable_string hc⟩,
      ⟨admitted_ascii _ (by decide), storable_string hi⟩⟩

/-- Only UTF-8 is asked of the details beyond what `validate_effect` checks. -/
theorem storable_intentDetails {kind : Bytes} {details : Value} {k : EffectKind}
    (hd : WellFormed details) (h : validateEffect operation kind details = .ok k)
    (hutf : AllStrings (fun s => validUtf8 s = true) details) :
    Storable 11 248 (intentDetails kind details) := by
  obtain ⟨rfl, hlen, u, hu⟩ := validateEffect_eq_ok.mp h
  have hdetails : Storable 3 109 details := by
    refine ⟨hd, validateDetails_within hd hu, ?_⟩
    refine (allStrings_and hutf (allStrings_length details)).mono fun s hs => ⟨?_, hs.1⟩
    exact hs.2.trans (hlen.trans (by decide +kernel))
  refine (storable_ofList (d := 3) (c := 109) ?_ ?_).mono (by decide) (by simp)
  · show (["kind", "effect"].map ascii).Nodup
    decide
  · simp only [List.forall_mem_cons, List.not_mem_nil, false_implies, implies_true, and_true]
    exact ⟨⟨admitted_ascii _ (by decide),
      (storable_string (admitted_kind k)).mono (by decide) (by decide)⟩,
      ⟨admitted_ascii _ (by decide), hdetails⟩⟩

theorem storable_completionDetails {outcome resultDigest : Bytes} {u : Unit}
    (h : validateCompletion kind outcome resultDigest = .ok u) :
    Storable 11 248 (completionDetails n kind outcome resultDigest) := by
  simp only [validateCompletion, demand_eq_ok, Bool.and_eq_true, Bool.or_eq_true, beq_iff_eq] at h
  have houtcome : Admitted outcome := by
    rcases h.1 with rfl | ⟨rfl, -⟩
    · exact admitted_ascii _ (by decide)
    · exact admitted_ascii _ (by decide)
  have hresult : ¬resultDigest.isEmpty = true → Admitted resultDigest := by
    intro hne
    have h2 := h.2
    split at h2
    · exact admitted_sha256 h2
    · exact absurd h2 hne
  refine (storable_ofList (d := 0) (c := 1) ?_ ?_).mono (by decide) (by simp)
  · show (["intent_sequence", "kind", "outcome", "result_digest"].map ascii).Nodup
    decide
  · simp only [List.forall_mem_cons, List.not_mem_nil, false_implies, implies_true, and_true]
    exact ⟨⟨admitted_ascii _ (by decide), storable_unsigned _⟩,
      ⟨admitted_ascii _ (by decide), storable_string (admitted_kind kind)⟩,
      ⟨admitted_ascii _ (by decide), storable_string houtcome⟩,
      ⟨admitted_ascii _ (by decide), storable_optional hresult⟩⟩

/-! ## The phase that the details spell -/

theorem ofFields_contextDetails (sourceContext identity : Bytes) :
    Phase.ofFields (ascii "context") (contextDetails sourceContext identity) =
      .ok (.context sourceContext identity) := by
  have hnd : (["source_context", "directory_identity"].map ascii).Nodup := by decide
  rw [Phase.ofFields, if_pos rfl]
  simp only [bind_eq_ok, getString_eq_ok, pure, Except.pure, Except.ok.injEq]
  exact ⟨(), exactKeys_ofList hnd (List.Perm.refl _), _, get_ofList (by exact hnd) rfl, _,
    get_ofList (by exact hnd) rfl, rfl⟩

theorem ofFields_intentDetails (kind : EffectKind) (details : Value) :
    Phase.ofFields (ascii "intent") (intentDetails kind.name details) =
      .ok (.intent kind details) := by
  have hnd : (["kind", "effect"].map ascii).Nodup := by decide
  rw [Phase.ofFields, if_neg (by decide), if_pos rfl]
  simp only [bind_eq_ok, getString_eq_ok, kindOf_eq_ok, pure, Except.pure, Except.ok.injEq]
  exact ⟨(), exactKeys_ofList hnd (List.Perm.refl _), _, get_ofList (by exact hnd) rfl, kind, rfl,
    _,
    get_ofList (by exact hnd) rfl, rfl⟩

theorem ofFields_completionDetails (hn : n < 2 ^ 64) (kind : EffectKind)
    (outcome resultDigest : Bytes) :
    Phase.ofFields (ascii "complete") (completionDetails n kind outcome resultDigest) =
      .ok (.complete n kind outcome resultDigest) := by
  have hnd : (["intent_sequence", "kind", "outcome", "result_digest"].map ascii).Nodup := by decide
  have hseq : (UInt64.ofNat n).toNat = n := by
    rw [UInt64.toNat_ofNat']
    exact Nat.mod_eq_of_lt hn
  have hopt : RecordReader.optionalString
      (if resultDigest.isEmpty then .null else .string resultDigest) = .ok resultDigest := by
    cases resultDigest <;> rfl
  rw [Phase.ofFields, if_neg (by decide), if_neg (by decide), if_pos rfl]
  simp only [bind_eq_ok, getString_eq_ok, kindOf_eq_ok, pure, Except.pure, Except.ok.injEq]
  exact ⟨(), exactKeys_ofList hnd (List.Perm.refl _), _, get_ofList (by exact hnd) rfl, _, rfl, _,
    get_ofList (by exact hnd) rfl, kind, rfl, _, get_ofList (by exact hnd) rfl, _,
    get_ofList (by exact hnd) rfl, _, hopt,
    by rw [hseq]⟩

theorem ofFields_sealed : Phase.ofFields (ascii "sealed") .null = .ok .closed := by
  rw [Phase.ofFields, if_neg (by decide), if_neg (by decide), if_neg (by decide), if_pos rfl]
  rfl

/-! ## The next record -/

variable {j : EffectJournal} {phase : Bytes} {details : Value}

/-- The directory with the next record in it. -/
def append (j : EffectJournal) (d : Directory) (phase : Bytes) (details : Value) : Directory :=
  { d with files := d.files ++ [(filename j.sequence, j.recordText phase details)] }

/-- The record fits: the object is usable and its bounds leave room. -/
structure Fits (j : EffectJournal) (phase : Bytes) (details : Value) : Prop where
  usable : j.failed = false
  unsealed : j.isSealed = false
  numbered : j.sequence < maximumRecords
  length : (j.recordText phase details).length ≤ maximumRecordBytes
  room : j.bytes ≤ maximumJournalBytes - (j.recordText phase details).length

theorem escaped_identifier_length (h : validIdentifier s = true) : (escaped s).length ≤ 770 := by
  simp only [validIdentifier, Bool.and_eq_true, decide_eq_true_eq] at h
  have := escaped_length_le s
  omega

theorem escaped_sha256_length (h : validSha256 s = true) : (escaped s).length ≤ 386 := by
  simp only [validSha256, Bool.and_eq_true, beq_iff_eq] at h
  have := escaped_length_le s
  omega

/-- Beside its details, a record takes little room. -/
theorem recordText_length_le (hj : j.Sound) (hp : phase.length ≤ 16) :
    (j.recordText phase details).length ≤ (canonical details).length + 4096 := by
  have hsequence : (decimal (UInt64.ofNat j.sequence).toNat).length ≤ 20 :=
    decimal_length_le (Nat.lt_of_lt_of_le (UInt64.toNat_lt _) (by decide))
  have hid := escaped_identifier_length hj.identifier
  have hsource := escaped_sha256_length hj.source
  have hhash := escaped_sha256_length (@recordHash_valid j phase details)
  have hphase := escaped_length_le phase
  have hprevious : (canonical (if j.lastDigest.isEmpty then .null
      else .string j.lastDigest)).length ≤ 386 := by
    split
    · decide
    · next hne =>
      rcases hj.last with h | h
      · rw [h] at hne
        exact absurd rfl hne
      · exact escaped_sha256_length h
  have hschema : (escaped (ascii "usk.maintenance_effect_record.v1")).length = 34 := rfl
  have hkeys : ((ByteMap.keys (j.allMembers phase details)).map fun k =>
      (escaped k).length + 2).sum ≤ 128 := by
    rw [keys_allMembers]
    decide
  have hle := canonical_ofList_length_le (@nodup_allMembers j phase details)
  rw [recordText_eq, List.length_append, List.length_singleton, recordValue]
  simp only [allMembers, bodyMembers, ByteMap.keys, List.cons_append, List.nil_append,
    List.map_cons, List.map_nil, List.sum_cons, List.sum_nil, canonical, hschema] at hle hkeys ⊢
  omega

/-- A record fits whenever there is room for one of the largest size. -/
theorem Sound.fits (hj : j.Sound) (hlive : j.failed = false) (hopen : j.isSealed = false)
    (hroom : j.sequence < maximumRecords)
    (hbytes : j.bytes ≤ maximumJournalBytes - maximumRecordBytes) (hp : phase.length ≤ 16)
    (hd : (canonical details).length ≤ 28672) : j.Fits phase details := by
  have htext := @recordText_length_le j phase details hj hp
  have hmax : maximumRecordBytes = 32768 := rfl
  have hmax' : maximumJournalBytes = 67108864 := rfl
  exact ⟨hlive, hopen, hroom, by omega, by omega⟩

end EffectJournal

namespace RecordReader

variable {cwd : Path} {r r₁ : RecordReader} {j : EffectJournal} {phase : Bytes} {details : Value}

/-- The reader consumes the record that the object writes next. -/
theorem consumeRecord_recordText {p : Phase} (hj : j.Sound) (hfits : j.Fits phase details)
    (hspec : j.spec.transactionId = r.spec.transactionId)
    (hsource : j.sourceDigest = r.expectedSourceDigest)
    (hspells : Phase.ofFields phase details = .ok p) (hstore : Storable 11 248 details)
    (hroom : r.result.nextSequence < r.recordCount) (hseq : j.sequence = r.result.nextSequence)
    (hsealed : r.result.isSealed = false) (hbytes : j.bytes = r.bytes)
    (hprev : (if j.lastDigest.isEmpty then none else some j.lastDigest) =
      if r.result.nextSequence = 0 then none else some r.result.journalDigest)
    (hadvance : advance cwd { r with bytes := r.bytes + (j.recordText phase details).length } p =
      some r₁) :
    consumeRecord cwd r (filename j.sequence) (j.recordText phase details) =
      .ok (r₁.accept (j.recordHash phase details)) := by
  have hphase : Admitted phase := by
    rw [Phase.ofFields_text hspells]
    cases p <;> exact admitted_ascii _ (by decide)
  exact consumeRecord_eq_ok.mpr ⟨_, _, r₁, EffectJournal.decodes_recordText hj hphase hstore
    hfits.length, hbytes ▸ hfits.room, EffectJournal.recordOf_recordValue hj hspells,
    ⟨hroom, by rw [hseq], hseq, hspec, hsource, hsealed, hprev⟩, hadvance, rfl⟩

end RecordReader

/-! ## The context record -/

namespace EffectJournal

variable {cwd : Path} {spec : TransactionSpec} {sourceContext : Bytes} {u : Unit}

/-- The object before its first record. -/
def opening (spec : TransactionSpec) (sourceContext : Bytes) (d : Directory) : EffectJournal :=
  { spec, directoryIdentity := d.identity, sourceDigest := sha256 sourceContext }

/-- The constructor validates the context and records it. -/
theorem create_eq_ok {d : Directory} {fault : Fault} {o : Outcome} :
    create cwd spec sourceContext d fault = .ok o ↔
      (∃ u, validateContext cwd spec sourceContext = .ok u) ∧
      o = (opening spec sourceContext d).persist d fault (ascii "context")
        (contextDetails sourceContext d.identity) := by
  simp only [create, bind_eq_ok, pure, Except.pure, Except.ok.injEq]
  constructor
  · rintro ⟨u, hu, digest, hdigest, rfl⟩
    rw [contextDigest_of_validateContext hu, Except.ok.injEq] at hdigest
    subst hdigest
    exact ⟨⟨u, hu⟩, rfl⟩
  · rintro ⟨⟨u, hu⟩, rfl⟩
    exact ⟨u, hu, _, contextDigest_of_validateContext hu, rfl⟩

theorem opening_sound (h : validateContext cwd spec sourceContext = .ok u) (d : Directory) :
    (opening spec sourceContext d).Sound := by
  obtain ⟨-, -, -, -, -, hid⟩ := validateContext_canonical h
  exact ⟨hid, validSha256_sha256 _, Or.inl rfl, by show 0 < 2 ^ 64; decide⟩

theorem opening_fits {d : Directory} (h : validateContext cwd spec sourceContext = .ok u)
    (hlen : (canonical (contextDetails sourceContext d.identity)).length ≤ 28672) :
    (opening spec sourceContext d).Fits (ascii "context")
      (contextDetails sourceContext d.identity) :=
  (opening_sound h d).fits rfl rfl (by show 0 < 200002; decide) (Nat.zero_le _) (by decide) hlen

end EffectJournal

end Usk.Maintenance
