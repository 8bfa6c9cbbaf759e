import UniversalSetup.Maintenance.Recorded

/-!
# The grammar of accepted journals

The reader enforces its grammar only through flags, one record at a time. Here it is written down as
a whole: a context, pairs of an intent and its completion, and at most one intent or one seal at the
end. The records are numbered from zero and each names the digest of the one before it.

The proof reads a list two records at a time: between effects the reader is `Idle`, an intent leaves
it waiting for exactly one completion, and a seal leaves it unable to read anything.
-/

namespace Usk.Maintenance

open Json Transaction

variable {entry : Bytes × Bytes} {xs : List (Bytes × Bytes)} {recs : List Record}

/-- What may follow the context, where the next record has number `n`. -/
inductive Effects : Nat → List Phase → Prop
  | done {n : Nat} : Effects n []
  | pending {n : Nat} {kind : EffectKind} {effect : Value} : Effects n [.intent kind effect]
  | closed {n : Nat} : Effects n [.closed]
  | effect {n : Nat} {kind : EffectKind} {effect : Value} {outcome resultDigest : Bytes}
      {rest : List Phase} : Effects (n + 2) rest →
      Effects n (.intent kind effect :: .complete n kind outcome resultDigest :: rest)

/-- The grammar of a journal. -/
structure WellShaped (recs : List Record) : Prop where
  shape : ∃ sourceContext directoryIdentity rest,
    recs.map Record.phase = .context sourceContext directoryIdentity :: rest ∧ Effects 1 rest
  numbered : ∀ (i : Nat) (rec : Record), recs[i]? = some rec → rec.sequence = i
  first : ∀ rec : Record, recs[0]? = some rec → rec.previous = none
  linked : ∀ (i : Nat) (rec next : Record), recs[i]? = some rec → recs[i + 1]? = some next →
    next.previous = some rec.digest

/-- A named text that decodes to a record. -/
def Spells (entry : Bytes × Bytes) (rec : Record) : Prop :=
  ∃ value, Decodes entry.2 value ∧ recordOf value = .ok rec

namespace RecordReader

variable {cwd : Path} {r r' r'' : RecordReader} {p : Phase}

/-- A reader that has neither failed nor finished. -/
def Live (r : RecordReader) : Prop :=
  r.failed = false ∧ r.finished = false

/-! ## What a step keeps -/

/-- The parts of the reader that no record changes. -/
structure SameJournal (r r' : RecordReader) : Prop where
  spec : r'.spec = r.spec
  directoryIdentity : r'.directoryIdentity = r.directoryIdentity
  expectedSourceDigest : r'.expectedSourceDigest = r.expectedSourceDigest
  recordCount : r'.recordCount = r.recordCount
  retainCompleted : r'.retainCompleted = r.retainCompleted
  failed : r'.failed = r.failed
  finished : r'.finished = r.finished

theorem SameJournal.trans (h : SameJournal r r') (h' : SameJournal r' r'') : SameJournal r r'' :=
  ⟨h'.spec.trans h.spec, h'.directoryIdentity.trans h.directoryIdentity,
    h'.expectedSourceDigest.trans h.expectedSourceDigest, h'.recordCount.trans h.recordCount,
    h'.retainCompleted.trans h.retainCompleted, h'.failed.trans h.failed,
    h'.finished.trans h.finished⟩

theorem advance_frame (h : advance cwd r p = some r') : SameJournal r r' ∧
    r'.result.nextSequence = r.result.nextSequence ∧ r'.bytes = r.bytes := by
  cases p <;> rw [advance, Option.ite_none_right_eq_some] at h <;> obtain ⟨-, he⟩ := h <;>
    cases he <;> exact ⟨⟨rfl, rfl, rfl, rfl, rfl, rfl, rfl⟩, rfl, rfl⟩

theorem consumeRecord_frame (h : consumeRecord cwd r entry.1 entry.2 = .ok r') : SameJournal r r' ∧
    r'.result.nextSequence = r.result.nextSequence + 1 := by
  obtain ⟨value, rec, r₁, -, -, -, -, ha, rfl⟩ := consumeRecord_eq_ok.mp h
  obtain ⟨⟨h1, h2, h3, h4, h5, h6, h7⟩, hn, -⟩ := advance_frame ha
  exact ⟨⟨h1, h2, h3, h4, h5, h6, h7⟩, congrArg (· + 1) hn⟩

theorem Live.of_same (h : Live r) (hs : SameJournal r r') : Live r' :=
  ⟨hs.failed.trans h.1, hs.finished.trans h.2⟩

/-- Reading a list is reading its first record and then the rest. -/
theorem consumeAll_cons (hl : Live r) {rest : List (Bytes × Bytes)} :
    r.consumeAll cwd (entry :: rest) = .ok r'' ↔
      ∃ r', consumeRecord cwd r entry.1 entry.2 = .ok r' ∧ r'.consumeAll cwd rest = .ok r'' := by
  obtain ⟨recordName, text⟩ := entry
  have hfail : (r.failed || r.finished) = false := by rw [hl.1, hl.2]; rfl
  rw [consumeAll, consume, hfail]
  cases h : consumeRecord cwd r recordName text <;> simp

theorem consumeAll_append (hl : Live r) {ys : List (Bytes × Bytes)} :
    r.consumeAll cwd (xs ++ ys) = .ok r'' ↔
      ∃ r', r.consumeAll cwd xs = .ok r' ∧ r'.consumeAll cwd ys = .ok r'' := by
  induction xs generalizing r with
  | nil => simp [consumeAll]
  | cons entry rest ih =>
    rw [List.cons_append, consumeAll_cons hl]
    constructor
    · rintro ⟨r', h1, h2⟩
      obtain ⟨q, h3, h4⟩ := (ih (hl.of_same (consumeRecord_frame h1).1)).mp h2
      exact ⟨q, (consumeAll_cons hl).mpr ⟨r', h1, h3⟩, h4⟩
    · rintro ⟨q, h1, h2⟩
      obtain ⟨r', h3, h4⟩ := (consumeAll_cons hl).mp h1
      exact ⟨r', h3, (ih (hl.of_same (consumeRecord_frame h3).1)).mpr ⟨q, h4, h2⟩⟩

theorem consumeAll_frame (hl : Live r) (h : r.consumeAll cwd xs = .ok r') : SameJournal r r' ∧
    r'.result.nextSequence = r.result.nextSequence + xs.length := by
  induction xs generalizing r with
  | nil =>
    cases h
    exact ⟨⟨rfl, rfl, rfl, rfl, rfl, rfl, rfl⟩, rfl⟩
  | cons entry rest ih =>
    obtain ⟨q, h1, h2⟩ := (consumeAll_cons hl).mp h
    obtain ⟨hs, hn⟩ := consumeRecord_frame h1
    obtain ⟨hs', hn'⟩ := ih (hl.of_same hs) h2
    refine ⟨hs.trans hs', ?_⟩
    rw [hn', hn, List.length_cons]
    omega

/-! ## Runs of the machine -/

/-- The machine reads a list of records. -/
inductive Trace (cwd : Path) : RecordReader → List Record → RecordReader → Prop
  | nil {r : RecordReader} : Trace cwd r [] r
  | step {r r₁ r' : RecordReader} {recordName : Bytes} {bytes : Nat} {rec : Record}
      {recs : List Record} : r.Links recordName rec →
      advance cwd { r with bytes } rec.phase = some r₁ →
      Trace cwd (r₁.accept rec.digest) recs r' → Trace cwd r (rec :: recs) r'

theorem trace_of_consumeAll (hl : Live r) (h : r.consumeAll cwd xs = .ok r') :
    ∃ recs, List.Forall₂ Spells xs recs ∧ Trace cwd r recs r' := by
  induction xs generalizing r with
  | nil =>
    cases h
    exact ⟨[], .nil, .nil⟩
  | cons entry rest ih =>
    obtain ⟨q, h1, h2⟩ := (consumeAll_cons hl).mp h
    obtain ⟨recs, hspell, htrace⟩ := ih (hl.of_same (consumeRecord_frame h1).1) h2
    obtain ⟨value, rec, r₁, hdec, -, hrec, hlinks, ha, rfl⟩ := consumeRecord_eq_ok.mp h1
    exact ⟨rec :: recs, .cons ⟨value, hdec, hrec⟩ hspell, .step hlinks ha htrace⟩

theorem trace_numbered (h : Trace cwd r recs r') :
    ∀ (i : Nat) (rec : Record), recs[i]? = some rec → rec.sequence = r.result.nextSequence + i := by
  induction h with
  | nil => simp
  | @step r r₁ r' _ _ rec recs hlinks ha _ ih =>
    intro i rec' hi
    cases i with
    | zero =>
      cases hi
      exact hlinks.numbered
    | succ i =>
      rw [ih i rec' hi]
      have hn : r₁.result.nextSequence = r.result.nextSequence := (advance_frame ha).2.1
      show r₁.result.nextSequence + 1 + i = _
      omega

/-- The first record read names the digest that the reader holds. -/
theorem trace_previous {rec : Record} (h : Trace cwd r (rec :: recs) r') :
    rec.previous = if r.result.nextSequence = 0 then none else some r.result.journalDigest := by
  cases h with
  | step hlinks _ _ => exact hlinks.previous

theorem trace_linked (h : Trace cwd r recs r') :
    ∀ (i : Nat) (rec next : Record), recs[i]? = some rec → recs[i + 1]? = some next →
      next.previous = some rec.digest := by
  induction h with
  | nil => simp
  | @step r r₁ r' _ _ rec recs _ _ htrace ih =>
    intro i a b ha hb
    cases i with
    | zero =>
      cases recs with
      | nil => cases hb
      | cons next rest =>
        cases ha
        cases hb
        simpa [accept] using trace_previous htrace
    | succ i => exact ih i a b ha hb

/-- Between effects: past the context, nothing pending, not sealed. -/
structure Idle (r : RecordReader) : Prop where
  started : r.result.nextSequence ≠ 0
  settled : r.result.pendingKind = none

/-- From an idle reader, records come in pairs of an intent and its completion. -/
theorem effects_of_trace (hidle : Idle r) (h : Trace cwd r recs r') :
    Effects r.result.nextSequence (recs.map Record.phase) := by
  -- an effect takes two records, so the induction is on the length
  induction hn : recs.length using Nat.strong_induction_on generalizing r recs with
  | _ n ih =>
  cases h with
  | nil => exact .done
  | @step _ r₁ _ _ _ rec recs hlinks ha htrace =>
    obtain ⟨_, _, _, _, _, phase⟩ := rec
    cases phase with
    | context c d =>
      rw [advance, Option.ite_none_right_eq_some] at ha
      exact absurd ha.1.1 hidle.started
    | complete n k o d =>
      rw [advance, Option.ite_none_right_eq_some] at ha
      exact absurd (hidle.settled.symm.trans ha.1.2.1) (by simp)
    | closed =>
      rw [advance, Option.ite_none_right_eq_some] at ha
      obtain ⟨-, he⟩ := ha
      cases he
      -- a sealed reader links to nothing
      cases htrace with
      | nil => exact .closed
      | step hlinks' _ _ => exact absurd hlinks'.unsealed (by simp [accept])
    | intent k e =>
      rw [advance, Option.ite_none_right_eq_some] at ha
      obtain ⟨-, he⟩ := ha
      cases he
      cases htrace with
      | nil => exact .pending
      | @step _ r₂ _ _ _ rec₂ rest hlinks' ha' htrace' =>
        obtain ⟨_, _, _, _, _, phase₂⟩ := rec₂
        cases phase₂ with
        | complete n k' o d =>
          rw [advance, Option.ite_none_right_eq_some] at ha'
          obtain ⟨⟨-, hk, hseq, -⟩, he⟩ := ha'
          cases he
          cases hk
          subst hseq
          rw [List.length_cons, List.length_cons] at hn
          exact .effect (ih rest.length (by omega) (by exact ⟨Nat.succ_ne_zero _, rfl⟩) htrace' rfl)
        | context c d =>
          rw [advance, Option.ite_none_right_eq_some] at ha'
          exact absurd ha'.1.1 (Nat.succ_ne_zero _)
        | intent k' e' =>
          rw [advance, Option.ite_none_right_eq_some] at ha'
          exact absurd ha'.1.2.1 (by simp [accept])
        | closed =>
          rw [advance, Option.ite_none_right_eq_some] at ha'
          exact absurd ha'.1.2 (by simp [accept])

/-! ## The declared number of records -/

theorem advance_recount (count : Nat) (h : advance cwd r p = some r') :
    advance cwd { r with recordCount := count } p = some { r' with recordCount := count } := by
  cases p <;> rw [advance, Option.ite_none_right_eq_some] at h <;> obtain ⟨hc, he⟩ := h <;>
    cases he <;> exact if_pos hc

/-- The declared number only bounds how many records may be read. -/
theorem consumeRecord_recount {count : Nat} (hcount : r.result.nextSequence < count)
    (h : consumeRecord cwd r entry.1 entry.2 = .ok r') :
    consumeRecord cwd { r with recordCount := count } entry.1 entry.2 =
      .ok { r' with recordCount := count } := by
  obtain ⟨value, rec, r₁, hdec, hbytes, hrec, hlinks, ha, rfl⟩ := consumeRecord_eq_ok.mp h
  exact consumeRecord_eq_ok.mpr ⟨value, rec, { r₁ with recordCount := count }, hdec, hbytes, hrec,
    { hlinks with room := hcount }, advance_recount count ha, rfl⟩

theorem consumeAll_recount (count : Nat) (hl : Live r)
    (hcount : r.result.nextSequence + xs.length ≤ count) (h : r.consumeAll cwd xs = .ok r') :
    consumeAll cwd { r with recordCount := count } xs = .ok { r' with recordCount := count } := by
  induction xs generalizing r with
  | nil =>
    cases h
    rfl
  | cons entry rest ih =>
    rw [List.length_cons] at hcount
    obtain ⟨q, h1, h2⟩ := (consumeAll_cons hl).mp h
    obtain ⟨hs, hn⟩ := consumeRecord_frame h1
    have hl' : Live { r with recordCount := count } := hl
    exact (consumeAll_cons hl').mpr
      ⟨_, consumeRecord_recount (by omega) h1, ih (hl.of_same hs) (by omega) h2⟩

end RecordReader

section Reading

variable {cwd : Path} {spec : TransactionSpec} {directoryIdentity expectedSourceDigest : Bytes}
  {count : Nat} {retain : Bool} {records : List (Bytes × Bytes)} {report : Inspection}

/-- The reader that the constructor makes. -/
def freshReader (spec : TransactionSpec) (directoryIdentity expectedSourceDigest : Bytes)
    (recordCount : Nat) (retainCompleted : Bool) : RecordReader :=
  { spec, directoryIdentity, expectedSourceDigest, recordCount, retainCompleted }

/-- What `finish` reports. -/
def reportOf (r : RecordReader) : Inspection :=
  { r.result with
    pendingSequence := r.pendingSequence
    serializedBytes := r.bytes
    directoryIdentity := r.directoryIdentity }

/-- A list is accepted exactly when it is read to its end and was announced with its length. -/
theorem readRecords_eq_ok :
    readRecords cwd spec directoryIdentity expectedSourceDigest count retain records = .ok report ↔
      (validIdentifier spec.transactionId = true ∧ validSha256 expectedSourceDigest = true ∧
        0 < count ∧ count ≤ maximumRecords) ∧ count = records.length ∧
      ∃ r, (freshReader spec directoryIdentity expectedSourceDigest count retain).consumeAll cwd
          records = .ok r ∧ report = reportOf r := by
  have hlive : (freshReader spec directoryIdentity expectedSourceDigest count retain).Live :=
    ⟨rfl, rfl⟩
  simp only [readRecords, RecordReader.create, bind_eq_ok, demand_eq_ok, Bool.and_eq_true,
    decide_eq_true_eq, pure, Except.pure, Except.ok.injEq]
  constructor
  · rintro ⟨_, ⟨-, hcond, rfl⟩, r, hr, hfin⟩
    obtain ⟨hs, hn⟩ := RecordReader.consumeAll_frame hlive hr
    have hl := hlive.of_same hs
    have hfail : (r.failed || r.finished) = false := by rw [hl.1, hl.2]; rfl
    rw [RecordReader.finish, hfail, if_neg Bool.false_ne_true] at hfin
    split at hfin
    · cases hfin
    · next hcount =>
      cases hfin
      have hc : count = records.length := by
        have h1 : r.result.nextSequence = r.recordCount := not_not.mp hcount
        rw [hn, hs.recordCount] at h1
        exact h1.symm.trans (Nat.zero_add _)
      exact ⟨⟨hcond.1.1.1, hcond.1.1.2, hcond.1.2, hcond.2⟩, hc, r, hr, rfl⟩
  · rintro ⟨⟨h1, h2, h3, h4⟩, hc, r, hr, rfl⟩
    refine ⟨_, ⟨(), ⟨⟨⟨h1, h2⟩, h3⟩, h4⟩, rfl⟩, r, hr, ?_⟩
    obtain ⟨hs, hn⟩ := RecordReader.consumeAll_frame hlive hr
    have hl := hlive.of_same hs
    have hfail : (r.failed || r.finished) = false := by rw [hl.1, hl.2]; rfl
    have hcount : r.result.nextSequence = r.recordCount := by
      rw [hn, hs.recordCount]
      exact (Nat.zero_add _).trans hc.symm
    rw [RecordReader.finish, hfail, if_neg Bool.false_ne_true, if_neg (not_not.mpr hcount)]
    rfl

/-! ## A journal of one record -/

/-- The reader after the context record of this object. -/
def openedReader (spec : TransactionSpec) (sourceContext : Bytes) (d : Directory) (retain : Bool) :
    RecordReader :=
  let j := EffectJournal.opening spec sourceContext d
  let details := EffectJournal.contextDetails sourceContext d.identity
  { freshReader spec d.identity (sha256 sourceContext) 1 retain with
    bytes := (j.recordText (ascii "context") details).length
    result := { sourceContext, sourceDigest := sha256 sourceContext
                journalDigest := j.recordHash (ascii "context") details, nextSequence := 1 } }

open EffectJournal in
/-- The context record alone is a journal. -/
theorem consumeAll_opening {sourceContext : Bytes} {d : Directory} {u : Unit}
    (hcontext : validateContext cwd spec sourceContext = .ok u)
    (hfits : (opening spec sourceContext d).Fits (ascii "context")
      (contextDetails sourceContext d.identity)) :
    (freshReader spec d.identity (sha256 sourceContext) 1 retain).consumeAll cwd
      [(filename 0, (opening spec sourceContext d).recordText (ascii "context")
        (contextDetails sourceContext d.identity))] =
      .ok (openedReader spec sourceContext d retain) := by
  let text := (opening spec sourceContext d).recordText (ascii "context")
    (contextDetails sourceContext d.identity)
  have hadvance : RecordReader.advance cwd
      { freshReader spec d.identity (sha256 sourceContext) 1 retain with bytes := 0 + text.length }
      (.context sourceContext d.identity) = some
        { freshReader spec d.identity (sha256 sourceContext) 1 retain with
          bytes := 0 + text.length
          result := { sourceContext, sourceDigest := sha256 sourceContext } } :=
    if_pos ⟨rfl, rfl, toBool_eq_true.mpr ⟨u, hcontext⟩,
      toOption_eq_some.mpr (contextDigest_of_validateContext hcontext)⟩
  have hconsume := RecordReader.consumeRecord_recordText
    (r := freshReader spec d.identity (sha256 sourceContext) 1 retain)
    (opening_sound hcontext d) hfits rfl rfl (ofFields_contextDetails _ _)
    (storable_contextDetails (validUtf8_of_validateContext hcontext)
      (admitted_nativeIdentity (nativeIdentity_hexId _ _)))
    Nat.zero_lt_one rfl rfl rfl rfl hadvance
  rw [Nat.zero_add] at hconsume
  exact (RecordReader.consumeAll_cons ⟨rfl, rfl⟩).mpr ⟨_, hconsume, rfl⟩

end Reading

/-- An uninstallation of `/i`. -/
def sampleSpec : TransactionSpec :=
  { transactionId := ascii "t", planId := ascii "p", planDigest := List.replicate 64 0x30,
    operation := ascii "uninstall", stagingParent := .ofText (ascii "/s"),
    targetRoot := .ofText (ascii "/i"), stateRoot := .ofText (ascii "/d"),
    auditRoot := .ofText (ascii "/a") }

/-- A root with a native identity. -/
def sampleRoot (root : String) : Value :=
  .object (ByteMap.ofList [(ascii "root", .string (ascii root)),
    (ascii "native_identity", .string (hexId 0 ++ 0x3a :: hexId 1))])

/-- A source context with one-letter names, which is valid for `sampleSpec`. -/
def sampleContext : Bytes :=
  let digest : Value := .string (List.replicate 64 0x30)
  canonical (.object (ByteMap.ofList
    [(ascii "schema", .string (ascii "usk.maintenance_source_context.v1")),
     (ascii "operation", .string (ascii "uninstall")),
     (ascii "install_id", .string (ascii "i")),
     (ascii "transaction_id", .string (ascii "t")),
     (ascii "plan_id", .string (ascii "p")),
     (ascii "plan_digest", digest),
     (ascii "policy_digest", digest),
     (ascii "applied_at", .string (ascii "0")),
     (ascii "original_installed_transaction_id", .string (ascii "u")),
     (ascii "original_installed_state_digest", digest),
     (ascii "ownership_manifest_ref", .string (ascii "o")),
     (ascii "ownership_manifest_digest", digest),
     (ascii "original_source_archive_digest", digest),
     (ascii "installed_root", .object (ByteMap.ofList [(ascii "root", .string (ascii "/i")),
        (ascii "native_identity", .null), (ascii "parent", sampleRoot "/")])),
     (ascii "operation_target_root", .string (ascii "/i")),
     (ascii "operation_target_parent", sampleRoot "/"),
     (ascii "staging_parent", sampleRoot "/s"),
     (ascii "state_root", sampleRoot "/d"),
     (ascii "audit_root", sampleRoot "/a")]))

/-- The directory of the sample before its first record. -/
def sampleDirectory : Directory :=
  { device := 1, inode := 2 }

set_option maxRecDepth 1000000 in
theorem sampleContext_valid :
    ∃ u, validateContext ⟨ascii "/"⟩ sampleSpec sampleContext = .ok u :=
  toBool_eq_true.mp (by decide +kernel)

set_option maxRecDepth 1000000 in
theorem sample_fits : (EffectJournal.opening sampleSpec sampleContext sampleDirectory).Fits
    (ascii "context") (EffectJournal.contextDetails sampleContext sampleDirectory.identity) :=
  let ⟨_, hu⟩ := sampleContext_valid
  EffectJournal.opening_fits hu (by decide +kernel)

/-! ## The grammar -/

section Grammar

variable {cwd : Path} {spec : TransactionSpec} {directoryIdentity expectedSourceDigest : Bytes}
  {count : Nat} {retain : Bool} {records : List (Bytes × Bytes)} {report : Inspection}

/-- Records read from the start form a journal of the grammar. -/
theorem wellShaped_of_trace {r r' : RecordReader} (hne : recs ≠ [])
    (hfresh : r.result.nextSequence = 0) (hnone : r.result.pendingKind = none)
    (h : RecordReader.Trace cwd r recs r') : WellShaped recs := by
  refine ⟨?_, fun i rec hi => ?_, fun rec hi => ?_, RecordReader.trace_linked h⟩
  · cases h with
    | nil => exact absurd rfl hne
    | @step _ r₁ _ _ _ rec recs _ ha htrace =>
      obtain ⟨_, _, _, _, _, phase⟩ := rec
      cases phase with
      | context c d =>
        rw [RecordReader.advance, Option.ite_none_right_eq_some] at ha
        obtain ⟨-, he⟩ := ha
        cases he
        refine ⟨c, d, _, rfl, ?_⟩
        have heffects := RecordReader.effects_of_trace (by exact ⟨Nat.succ_ne_zero _, hnone⟩) htrace
        rwa [RecordReader.accept, hfresh] at heffects
      | _ =>
        rw [RecordReader.advance, Option.ite_none_right_eq_some] at ha
        exact absurd hfresh ha.1.1
  · have hnum := RecordReader.trace_numbered h i rec hi
    rwa [hfresh, Nat.zero_add] at hnum
  · cases recs with
    | nil => cases hi
    | cons rec' rest =>
      cases hi
      have hprev := RecordReader.trace_previous h
      rwa [if_pos hfresh] at hprev

end Grammar

end Usk.Maintenance
