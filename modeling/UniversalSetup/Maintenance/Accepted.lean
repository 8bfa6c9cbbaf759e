import UniversalSetup.Maintenance.Refinement

/-!
# Accepted journals

What it tells about a list of records that the reader accepts it: the records form a journal of the
grammar, and the digest of the last one binds all of them. Both are shown at the journal of a whole
run, with a context, an effect and its completion, and the seal that a second process wrote.
-/

namespace Usk.Maintenance

open Json Transaction

section Grammar

variable {cwd : Path} {spec : TransactionSpec} {directoryIdentity expectedSourceDigest : Bytes}
  {count : Nat} {retain : Bool} {records : List (Bytes × Bytes)} {report : Inspection}

/-- An accepted list of records is a journal of the grammar, and so is every part of it that a
crash between two records leaves behind: each non-empty prefix is accepted. -/
theorem accepted_journal_grammar
    (h : readRecords cwd spec directoryIdentity expectedSourceDigest count retain records =
      .ok report) :
    (∃ recs, List.Forall₂ Spells records recs ∧ WellShaped recs) ∧
      ∀ pre, pre <+: records → pre ≠ [] → ∃ report',
        readRecords cwd spec directoryIdentity expectedSourceDigest pre.length retain pre =
          .ok report' := by
  obtain ⟨⟨hid, hsrc, hpos, hmax⟩, rfl, r, hr, rfl⟩ := readRecords_eq_ok.mp h
  have hlive :
      (freshReader spec directoryIdentity expectedSourceDigest records.length retain).Live :=
    ⟨rfl, rfl⟩
  constructor
  · obtain ⟨recs, hspell, htrace⟩ := RecordReader.trace_of_consumeAll hlive hr
    have hne : recs ≠ [] := by
      intro he
      rw [he, List.forall₂_nil_right_iff] at hspell
      rw [hspell] at hpos
      exact absurd hpos (Nat.lt_irrefl 0)
    exact ⟨recs, hspell, wellShaped_of_trace hne rfl rfl htrace⟩
  · rintro pre ⟨rest, rfl⟩ hne
    obtain ⟨q, hq, -⟩ := (RecordReader.consumeAll_append hlive).mp hr
    have hrecount := RecordReader.consumeAll_recount pre.length hlive
      (Nat.le_of_eq (Nat.zero_add _)) hq
    rw [List.length_append] at hmax
    exact ⟨_, readRecords_eq_ok.mpr ⟨⟨hid, hsrc, List.length_pos_iff.mpr hne, by omega⟩, rfl, _,
      hrecount, rfl⟩⟩

end Grammar

theorem sampleSealed_accepted : ∃ digest, ∀ retain, ∃ report,
    readRecords ⟨ascii "/"⟩ sampleSpec sampleDirectory.identity (sha256 sampleContext) 4 retain
      sampleSealed.files = .ok report ∧ report.journalDigest = digest :=
  sampleWorld_starts.accepted sampleEvents_utf8 sampleRun.1

/-- The journal of the sample run is one of the grammar, and what a crash after the intent left was
accepted. -/
theorem sampleSealed_grammar :
    (∃ recs, List.Forall₂ Spells sampleSealed.files recs ∧ WellShaped recs) ∧
      ∃ report, readRecords ⟨ascii "/"⟩ sampleSpec sampleDirectory.identity (sha256 sampleContext)
        2 true (sampleSealed.files.take 2) = .ok report := by
  obtain ⟨_, haccepted⟩ := sampleSealed_accepted
  obtain ⟨_, h, -⟩ := haccepted true
  have hgrammar := accepted_journal_grammar h
  exact ⟨hgrammar.1, hgrammar.2 _ (List.take_prefix 2 _) (List.cons_ne_nil _ _)⟩

/-! ## Digests -/

/-- Two histories accepted for one transaction and directory with the same digest are byte for byte
the same history. Collisions are excluded among the bodies of the two histories only. -/
theorem journal_digest_binds_history {cwd : Path} {spec : TransactionSpec}
    {directoryIdentity source source' : Bytes} {count count' : Nat} {retain retain' : Bool}
    {records records' : List (Bytes × Bytes)} {report report' : Inspection}
    (h : readRecords cwd spec directoryIdentity source count retain records = .ok report)
    (h' : readRecords cwd spec directoryIdentity source' count' retain' records' = .ok report')
    (hinj : Set.InjOn sha256 (hashedTexts records ∪ hashedTexts records'))
    (hdigest : report.journalDigest = report'.journalDigest) :
    records.length = records'.length ∧ records = records' := by
  obtain ⟨⟨-, -, hpos, -⟩, rfl, r, hr, rfl⟩ := readRecords_eq_ok.mp h
  obtain ⟨⟨-, -, hpos', -⟩, rfl, r', hr', rfl⟩ := readRecords_eq_ok.mp h'
  have heq := records_eq_of_digest_eq ⟨rfl, rfl⟩ ⟨rfl, rfl⟩ rfl rfl (List.length_pos_iff.mp hpos)
    (List.length_pos_iff.mp hpos') hinj hr hr' hdigest
  exact ⟨congrArg List.length heq, heq⟩

/-- What is hashed of a record that the object wrote. -/
theorem hashed_recordText {j : EffectJournal} {phase : Bytes} {details : Value} {o : Object}
    (hd : WellFormed details) (h : parse (j.recordText phase details) recordLimits =
      .ok (.object o)) :
    canonical (recordBody o) = canonical (.object (j.recordMembers phase details)) := by
  rw [EffectJournal.recordText_eq] at h
  have hvalue := ((parse_encodes_line (encodes_canonical
    (EffectJournal.wellFormed_recordValue hd))).eq_of_ok h).2
  rw [EffectJournal.recordValue, Value.object.injEq] at hvalue
  rw [hvalue, EffectJournal.recordBody_recordValue]

/-- What the sample run recorded: the object, the phase and the details. -/
def sampleWritten : List (EffectJournal × Bytes × Value) :=
  let begun := sampleOpened.begun .removeDirectory (sampleRemoval (ascii "d")).1
  [(.opening sampleSpec sampleContext sampleDirectory, ascii "context",
      EffectJournal.contextDetails sampleContext sampleDirectory.identity),
    (sampleOpened, ascii "intent",
      EffectJournal.intentDetails EffectKind.removeDirectory.name (sampleRemoval (ascii "d")).1),
    (begun, ascii "complete",
      EffectJournal.completionDetails sampleOpened.sequence .removeDirectory (ascii "applied") []),
    (begun.completed .removeDirectory (ascii "applied") [], ascii "sealed", .null)]

/-- The digests of the records. -/
def sampleDigests : List Bytes :=
  [ascii "eaabb0b556a3229c218430be97ea707516e7dd9470cda7a74b2403a36c19e1f2",
    ascii "a2ea4f9cf5e2a724ba9dba079285e1b16fe3c3d574b02952e2b302f00d238b38",
    ascii "80cfc1dcc3259d867e9a172144d4401b8e6041ec88c608ced88cbac4584abec1",
    ascii "7d5c8bdc69e592ff297c9e501429a464ecf5d152b5700807bbe3d60dbdd0229d"]

/-- The object before a record, with its digests spelled out. -/
def sampleWriter (sequence : Nat) : EffectJournal :=
  { spec := sampleSpec
    directoryIdentity := sampleDirectory.identity
    sourceDigest := ascii "9e8d8abee61e10613efeb7a508bcd0fd950923a612489b5862a5015a54b589a8"
    lastDigest := (sampleDigests.take sequence).getLastD []
    sequence }

theorem EffectJournal.recordHash_congr (j j' : EffectJournal) (hspec : j.spec = j'.spec)
    (hsource : j.sourceDigest = j'.sourceDigest) (hlast : j.lastDigest = j'.lastDigest)
    (hsequence : j.sequence = j'.sequence) (phase : Bytes) (details : Value) :
    j.recordHash phase details = j'.recordHash phase details := by
  simp only [recordHash, recordMembers, hspec, hsource, hlast, hsequence]

set_option maxRecDepth 100000 in
theorem sampleContext_digest : sha256 sampleContext = (sampleWriter 0).sourceDigest := by
  decide +kernel

set_option maxRecDepth 100000 in
theorem sampleWriter_hashes :
    (sampleWriter 0).recordHash (ascii "context") (EffectJournal.contextDetails sampleContext
        sampleDirectory.identity) = (sampleWriter 1).lastDigest ∧
      (sampleWriter 1).recordHash (ascii "intent") (EffectJournal.intentDetails
        EffectKind.removeDirectory.name (sampleRemoval (ascii "d")).1) =
          (sampleWriter 2).lastDigest ∧
      (sampleWriter 2).recordHash (ascii "complete") (EffectJournal.completionDetails 1
        .removeDirectory (ascii "applied") []) = (sampleWriter 3).lastDigest ∧
      (sampleWriter 3).recordHash (ascii "sealed") .null = (sampleWriter 4).lastDigest := by
  decide +kernel

theorem sampleWritten_hashes :
    sampleWritten.map (fun e => e.1.recordHash e.2.1 e.2.2) = sampleDigests := by
  obtain ⟨h0, h1, h2, h3⟩ := sampleWriter_hashes
  have hsource := sampleContext_digest
  have hopened := (EffectJournal.recordHash_congr
    (.opening sampleSpec sampleContext sampleDirectory) (sampleWriter 0)
    rfl hsource rfl rfl _ _).trans h0
  have hbegun := (EffectJournal.recordHash_congr sampleOpened (sampleWriter 1)
    rfl hsource hopened rfl _ _).trans h1
  have hcompleted := (EffectJournal.recordHash_congr
    (sampleOpened.begun .removeDirectory (sampleRemoval (ascii "d")).1) (sampleWriter 2)
    rfl hsource hbegun rfl _ _).trans h2
  have hsealed := (EffectJournal.recordHash_congr
    ((sampleOpened.begun .removeDirectory (sampleRemoval (ascii "d")).1).completed
      .removeDirectory (ascii "applied") []) (sampleWriter 3) rfl hsource hcompleted rfl _ _).trans
        h3
  exact List.cons_eq_cons.mpr ⟨hopened, List.cons_eq_cons.mpr ⟨hbegun, List.cons_eq_cons.mpr
    ⟨hcompleted, List.cons_eq_cons.mpr ⟨hsealed, rfl⟩⟩⟩⟩

theorem sampleWritten_wellFormed : ∀ e ∈ sampleWritten, WellFormed e.2.2 := by
  obtain ⟨u, hcontext⟩ := sampleContext_valid
  have hvalid : validateCompletion .removeDirectory (ascii "applied") [] = .ok () := by decide
  simp only [sampleWritten, List.forall_mem_cons, List.not_mem_nil, false_implies, implies_true,
    and_true]
  exact ⟨(EffectJournal.storable_contextDetails (validUtf8_of_validateContext hcontext)
      (admitted_nativeIdentity (nativeIdentity_hexId _ _))).wellFormed,
    (EffectJournal.storable_intentDetails (sampleRemoval _).2 (sampleRemoval_valid _ (.inl rfl))
      sampleRemoval_utf8).wellFormed,
    (EffectJournal.storable_completionDetails hvalid).wellFormed, trivial⟩

/-- SHA-256 does not collide on what is hashed in the sample. -/
theorem injOn_sampleSealed : Set.InjOn sha256 (hashedTexts sampleSealed.files) := by
  have hnodup : (sampleWritten.map fun e => e.1.recordHash e.2.1 e.2.2).Nodup := by
    rw [sampleWritten_hashes]
    decide +kernel
  have htext : ∀ t ∈ hashedTexts sampleSealed.files, ∃ e ∈ sampleWritten,
      t = canonical (.object (e.1.recordMembers e.2.1 e.2.2)) := by
    rintro t ⟨entry, hmem, o, hparse, rfl⟩
    obtain ⟨e, he, rfl⟩ : ∃ e ∈ sampleWritten,
        (filename e.1.sequence, e.1.recordText e.2.1 e.2.2) = entry := List.mem_map.mp hmem
    exact ⟨e, he, hashed_recordText (sampleWritten_wellFormed e he) hparse⟩
  intro t ht t' ht' heq
  obtain ⟨e, he, rfl⟩ := htext t ht
  obtain ⟨e', he', rfl⟩ := htext t' ht'
  rw [List.inj_on_of_nodup_map hnodup he he' heq]

/-- The directory of the sample run and the list of what was recorded, read with and without the
completed effects. -/
theorem sampleSealed_bound :
    let written := sampleWritten.map fun e =>
      (filename e.1.sequence, e.1.recordText e.2.1 e.2.2)
    ∃ report report',
      readRecords ⟨ascii "/"⟩ sampleSpec sampleDirectory.identity (sha256 sampleContext) 4 true
        sampleSealed.files = .ok report ∧
      readRecords ⟨ascii "/"⟩ sampleSpec sampleDirectory.identity (sha256 sampleContext) 4 false
        written = .ok report' ∧
      report.journalDigest = report'.journalDigest ∧ sampleSealed.files = written := by
  obtain ⟨digest, haccepted⟩ := sampleSealed_accepted
  obtain ⟨report, h, hdigest⟩ := haccepted true
  obtain ⟨report', h', hdigest'⟩ := haccepted false
  have hsame := hdigest.trans hdigest'.symm
  exact ⟨report, report', h, h', hsame, (journal_digest_binds_history h h'
    (by rw [Set.union_self]; exact injOn_sampleSealed) hsame).2⟩

end Usk.Maintenance
