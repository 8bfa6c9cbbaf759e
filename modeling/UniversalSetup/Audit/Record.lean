import UniversalSetup.Audit.Event

/-!
# Records of audit events

A record is the canonical text of a document and the end of a line. A text that is accepted is the
canonical text of a document that shows the event, so it is the text that the writer makes, unless
the document has an empty member that the writer would have left out.
-/

namespace Usk.Audit

open Json

variable {o : Object} {event : AuditEvent} {text : Bytes}

/-! ## The members of a document that is read -/

/-- The texts of an event that are members of its document or of the subject in it. -/
def AuditEvent.texts (event : AuditEvent) : List Bytes :=
  [ascii "usk.audit_event.v1", event.eventId, event.eventDigest, event.auditChainId,
    event.previousEventDigest, event.createdAt, event.operation, event.phase, event.status,
    event.subjectType, event.subjectId, event.detailsDigest, event.transactionId, event.planId,
    event.message]

/-- A property of the texts of an event, of numbers and of `null`, is one of all members. -/
theorem Reads.forall_mem {o : Object} {event : AuditEvent} {P : Value → Prop}
    (hw : WellFormed (.object o)) (h : Reads o event)
    (htext : ∀ s ∈ event.texts, P (.string s)) (hnull : P .null)
    (hsequence : P (.unsigned event.sequence))
    (hsubject : P (.object (ByteMap.ofList [
      (ascii "subject_id", .string event.subjectId),
      (ascii "subject_type", .string event.subjectType)]))) : ∀ m ∈ o, P m.2 := by
  have hat : ∀ (i : Nat) {found : Option Value} {s : Bytes}, found = some (.string s) →
      event.texts[i]? = some s → ∀ w ∈ found, P w := by
    intro i found s hfound hi w hw
    cases hfound.symm.trans hw
    exact htext s (List.mem_of_getElem? hi)
  have hmember : ∀ (i : Nat) {found : Option Value} {s : Bytes}, IsText found s →
      event.texts[i]? = some s → ∀ w ∈ found, P w := by
    intro i found s hfound hi w hw
    rcases hfound with ⟨hnone, -⟩ | hsome
    · cases hnone.symm.trans hw
    · exact hat i hsome hi w hw
  have hall : ∀ key ∈ requiredMembers ++ optionalMembers, ∀ w ∈ o.find (ascii key), P w := by
    simp only [requiredMembers, optionalMembers, List.cons_append, List.nil_append,
      List.forall_mem_cons]
    refine ⟨hat 0 h.schema rfl, hat 1 h.eventId rfl, hat 2 h.eventDigest rfl,
      hat 3 h.auditChainId rfl, ?_, ?_, hat 5 h.createdAt rfl, hat 6 h.operation rfl,
      hat 7 h.phase rfl, hat 8 h.status rfl, ?_, hat 11 h.detailsDigest rfl,
      hmember 12 h.transactionId rfl, hmember 13 h.planId rfl, hmember 14 h.message rfl,
      List.forall_mem_nil _⟩
    · intro w hw
      cases h.sequence.symm.trans hw
      exact hsequence
    · intro w hw
      rcases h.previous with ⟨hfound, -⟩ | hfound
      · cases hfound.symm.trans hw
        exact hnull
      · exact hat 4 hfound rfl w hw
    · intro w hw'
      cases (h.subject_eq hw).symm.trans hw'
      exact hsubject
  intro m hm
  obtain ⟨key, hkey, he⟩ := List.mem_map.mp (h.allowed m.1 (List.mem_map_of_mem hm))
  refine hall key hkey m.2 ?_
  rw [he]
  exact find_of_mem (ByteMap.nodup_of_sorted (wellFormed_object.mp hw).1) hm

theorem Reads.length_le (hw : WellFormed (.object o)) (h : Reads o event) : o.length ≤ 15 := by
  have hnd := ByteMap.nodup_of_sorted (wellFormed_object.mp hw).1
  have hle := (hnd.subperm fun k hk => h.allowed k hk).length_le
  simpa [ByteMap.keys, requiredMembers, optionalMembers] using hle

/-- The keys of a document are literals of the source. -/
theorem Reads.shortAscii_key (h : Reads o event) {m : Bytes × Value} (hm : m ∈ o) :
    ShortAscii 64 m.1 := by
  have hliterals : ∀ k ∈ (requiredMembers ++ optionalMembers).map ascii, k.length ≤ 64 ∧
      ∀ c ∈ k, c ≤ 0x7f := by decide +kernel
  exact hliterals m.1 (h.allowed m.1 (List.mem_map_of_mem hm))

theorem nodup_subject (event : AuditEvent) : (ByteMap.keys [
    (ascii "subject_id", Value.string event.subjectId),
    (ascii "subject_type", Value.string event.subjectType)]).Nodup := by
  show (["subject_id", "subject_type"].map ascii).Nodup
  decide

theorem within_subject (event : AuditEvent) : Within 1 3 (.object (ByteMap.ofList [
    (ascii "subject_id", .string event.subjectId),
    (ascii "subject_type", .string event.subjectType)])) := by
  have hperm := ByteMap.ofList_perm (nodup_subject event)
  refine within_object (d := 0) (c := 1) (n := 2) hperm.length_eq.le fun m hm => ?_
  rw [hperm.mem_iff] at hm
  simp only [List.mem_cons, List.not_mem_nil, or_false] at hm
  rcases hm with rfl | rfl
  · exact within_string _
  · exact within_string _

theorem Reads.within (hw : WellFormed (.object o)) (h : Reads o event) :
    Within 2 46 (.object o) := by
  have hmembers : ∀ m ∈ o, Within 1 3 m.2 := by
    refine h.forall_mem hw ?_ ?_ ?_ ?_
    · exact fun s _ => (within_string s).mono (Nat.zero_le 1) (by decide)
    · exact ⟨Nat.zero_le 1, by decide⟩
    · exact (within_unsigned event.sequence).mono (Nat.zero_le 1) (by decide)
    · exact within_subject event
  exact within_object (n := 15) (h.length_le hw) hmembers

theorem allStrings_subject (htexts : ∀ s ∈ event.texts, validUtf8 s = true) :
    AllStrings (fun s => validUtf8 s = true) (.object (ByteMap.ofList [
      (ascii "subject_id", .string event.subjectId),
      (ascii "subject_type", .string event.subjectType)])) := by
  have hid : validUtf8 event.subjectId = true := htexts _ (by simp [AuditEvent.texts])
  have htype : validUtf8 event.subjectType = true := htexts _ (by simp [AuditEvent.texts])
  have hkeys : ∀ key ∈ ["subject_id", "subject_type"], ∀ c ∈ ascii key,
    c ≤ 0x7f := by decide +kernel
  simp only [List.forall_mem_cons] at hkeys
  rw [AllStrings, allStringsMembers_iff]
  intro m hm
  rw [(ByteMap.ofList_perm (nodup_subject event)).mem_iff] at hm
  simp only [List.mem_cons, List.not_mem_nil, or_false] at hm
  rcases hm with rfl | rfl
  · exact ⟨validUtf8_of_ascii hkeys.1, hid⟩
  · exact ⟨validUtf8_of_ascii hkeys.2.1, htype⟩

theorem Reads.allStrings (hw : WellFormed (.object o)) (h : Reads o event)
    (htexts : ∀ s ∈ event.texts, validUtf8 s = true) :
    AllStrings (fun s => validUtf8 s = true) (.object o) := by
  have hmembers : ∀ m ∈ o, AllStrings (fun s => validUtf8 s = true) m.2 :=
    h.forall_mem hw htexts trivial trivial (allStrings_subject htexts)
  rw [AllStrings, allStringsMembers_iff]
  exact fun m hm => ⟨validUtf8_of_ascii (h.shortAscii_key hm).2, hmembers m hm⟩

/-! ## Accepted texts -/

theorem shortAscii_oneOf {names : List String} {s : Bytes} (h : oneOf names s = true)
    (hnames : ∀ name ∈ names, (ascii name).length ≤ 128 ∧ ∀ c ∈ ascii name, c ≤ 0x7f) :
    ShortAscii 128 s := by
  unfold oneOf at h
  obtain ⟨name, hname, rfl⟩ := List.mem_map.mp (List.contains_iff_mem.mp h)
  exact hnames name hname

/-- All texts of an accepted event but two are short and ASCII. -/
theorem texts_of_valid (hvalid : event.toAuditInput.valid = true) (hsealed : event.sealed = true)
    {s : Bytes} (hs : s ∈ event.texts) :
    s = event.createdAt ∨ s = event.message ∨ ShortAscii 128 s := by
  simp only [AuditInput.valid, AuditEvent.sealed, Bool.and_eq_true,
    Bool.or_eq_true] at hvalid hsealed
  obtain ⟨⟨⟨⟨⟨⟨⟨⟨⟨-, hoperation⟩, hphase⟩, hstatus⟩, htype⟩, hid⟩, hdetails⟩, htransaction⟩,
    hplan⟩, -⟩ := hvalid
  obtain ⟨⟨⟨⟨heventId, hchain⟩, hdigest⟩, hprevious⟩, -⟩ := hsealed
  have hempty : ∀ {t : Bytes}, t.isEmpty = true → ShortAscii 128 t := by
    intro t ht
    rw [List.isEmpty_iff.mp ht]
    exact ⟨Nat.zero_le _, fun c hc => absurd hc List.not_mem_nil⟩
  have hhash : ∀ {t : Bytes}, validSha256 t = true → ShortAscii 128 t :=
    fun ht => ⟨(shortAscii_sha256 ht).1.trans (by decide), (shortAscii_sha256 ht).2⟩
  simp only [AuditEvent.texts, List.mem_cons, List.not_mem_nil, or_false] at hs
  rcases hs with rfl | rfl | rfl | rfl | rfl | rfl | rfl | rfl | rfl | rfl | rfl | rfl | rfl | rfl |
    rfl
  · have hschema := shortAscii_literal "usk.audit_event.v1" (by decide)
    exact .inr (.inr ⟨hschema.1.trans (by decide), hschema.2⟩)
  · exact .inr (.inr (shortAscii_identifier heventId))
  · exact .inr (.inr (hhash hdigest))
  · exact .inr (.inr (shortAscii_identifier hchain))
  · exact .inr (.inr (hprevious.elim hempty hhash))
  · exact .inl rfl
  · exact .inr (.inr (shortAscii_oneOf hoperation (by decide +kernel)))
  · exact .inr (.inr (shortAscii_oneOf hphase (by decide +kernel)))
  · exact .inr (.inr (shortAscii_oneOf hstatus (by decide +kernel)))
  · exact .inr (.inr (shortAscii_oneOf htype (by decide +kernel)))
  · exact .inr (.inr (shortAscii_identifier hid))
  · exact .inr (.inr (hhash hdetails))
  · exact .inr (.inr (htransaction.elim hempty shortAscii_identifier))
  · exact .inr (.inr (hplan.elim hempty shortAscii_identifier))
  · exact .inr (.inl rfl)

/-- A text that is accepted, and the object that it is the text of. -/
structure Accepted (text : Bytes) (o : Object) (event : AuditEvent) : Prop where
  short : text.length ≤ maximumEventBytes
  parsed : parse text {} = .ok (.object o)
  ends : text = canonical (.object o) ++ lineFeed ∨
    text = canonical (.object o) ++ carriageReturnLineFeed
  reads : Reads o event
  valid : event.toAuditInput.valid = true
  isSealed : event.sealed = true

theorem decodeAuditEventRecord_eq_ok :
    decodeAuditEventRecord text = .ok event ↔ ∃ o, Accepted text o event := by
  simp only [decodeAuditEventRecord, bind_eq_ok, demand_eq_ok, decide_eq_true_eq, readLine_eq_ok]
  constructor
  · rintro ⟨-, hshort, v, ⟨hparse, hends⟩, hevent⟩
    obtain ⟨o, rfl, hreads, hvalid, hsealed⟩ := parseEvent_eq_ok hevent
    exact ⟨o, hshort, hparse, hends, hreads, hvalid, hsealed⟩
  · rintro ⟨o, h⟩
    exact ⟨(), h.short, _, ⟨h.parsed, h.ends⟩,
      parseEvent_object.mpr ⟨h.reads, h.valid, h.isSealed⟩⟩

theorem Accepted.wellFormed (h : Accepted text o event) : WellFormed (.object o) :=
  parse_wellFormed h.parsed

/-- A document that shows an event is accepted if its text is not too long and is UTF-8. -/
theorem accepted_of_reads (hw : WellFormed (.object o)) (hreads : Reads o event)
    (hvalid : event.toAuditInput.valid = true) (hsealed : event.sealed = true)
    (hcreated : validUtf8 event.createdAt = true) (hmessage : validUtf8 event.message = true)
    (hshort : (canonical (.object o) ++ lineFeed).length ≤ maximumEventBytes) :
    Accepted (canonical (.object o) ++ lineFeed) o event := by
  have htexts : ∀ s ∈ event.texts, validUtf8 s = true := by
    intro s hs
    rcases texts_of_valid hvalid hsealed hs with rfl | rfl | hascii
    · exact hcreated
    · exact hmessage
    · exact validUtf8_of_ascii hascii.2
  obtain ⟨hdepth, hcount⟩ := hreads.within hw
  have hlength : AllStrings (fun s => s.length ≤ maximumEventBytes) (.object o) := by
    refine (allStrings_length (.object o)).mono fun s hs => hs.trans ?_
    rw [List.length_append] at hshort
    omega
  have hallow : ParseLimits.Allow {} (.object o) :=
    ⟨hdepth.trans (by decide), hcount.trans (by decide),
      allStrings_and hlength (hreads.allStrings hw htexts)⟩
  refine ⟨hshort, ?_, .inl rfl, hreads, hvalid, hsealed⟩
  exact (parse_encodes_line (encodes_canonical hw)).1 ⟨hshort.trans (by decide), hallow⟩

theorem canonical_string_length_le {n : Nat} {s : Bytes} (h : s.length ≤ n) :
    (canonical (.string s)).length ≤ 6 * n + 2 := by
  have hle := escaped_length_le s
  rw [canonical]
  omega

theorem canonical_subject_length_le (h : ∀ s ∈ event.texts, s.length ≤ 4096) :
    (canonical (.object (ByteMap.ofList [
      (ascii "subject_id", .string event.subjectId),
      (ascii "subject_type", .string event.subjectType)]))).length ≤ 50000 := by
  have hle := canonical_ofList_length_le (nodup_subject event)
  have hid : event.subjectId.length ≤ 4096 := h _ (by simp [AuditEvent.texts])
  have htype : event.subjectType.length ≤ 4096 := h _ (by simp [AuditEvent.texts])
  have hid := canonical_string_length_le hid
  have htype := canonical_string_length_le htype
  have hkey : ((escaped (ascii "subject_id")).length, (escaped (ascii "subject_type")).length) =
      (12, 14) := by decide
  simp only [List.map_cons, List.map_nil, List.sum_cons, List.sum_nil, Prod.mk.injEq] at hle hkey
  omega

/-- The text of a document is far from the bound if the two free texts are short. -/
theorem Reads.length_canonical_le (hw : WellFormed (.object o)) (h : Reads o event)
    (htexts : ∀ s ∈ event.texts, s.length ≤ 4096) :
    (canonical (.object o) ++ lineFeed).length ≤ maximumEventBytes := by
  have hvalue : ∀ m ∈ o, (canonical m.2).length ≤ 50000 := by
    refine h.forall_mem (P := fun v => (canonical v).length ≤ 50000) hw (fun s hs => ?_) ?_ ?_
      (canonical_subject_length_le htexts)
    · have := canonical_string_length_le (htexts s hs)
      omega
    · exact Nat.le_of_ble_eq_true rfl
    · exact (shortAscii_decimal event.sequence).1.trans (by decide)
  have hmember : ∀ m ∈ o, (escaped m.1).length + (canonical m.2).length + 2 ≤ 50500 := by
    intro m hm
    have hkey := escaped_length_le m.1
    have hshort := (h.shortAscii_key hm).1
    have := hvalue m hm
    omega
  have hcount := h.length_le hw
  have hle := canonical_object_length_le hmember
  have hmul := Nat.mul_le_mul_right 50500 hcount
  rw [List.length_append, lineFeed, List.length_singleton, maximumEventBytes]
  omega

theorem texts_length_le (hvalid : event.toAuditInput.valid = true) (hsealed : event.sealed = true)
    (hcreated : event.createdAt.length ≤ 4096) : ∀ s ∈ event.texts, s.length ≤ 4096 := by
  have hmessage : event.message.length ≤ 4096 := by
    simp only [AuditInput.valid, Bool.and_eq_true, decide_eq_true_eq] at hvalid
    exact hvalid.2
  intro s hs
  rcases texts_of_valid hvalid hsealed hs with rfl | rfl | hascii
  · exact hcreated
  · exact hmessage
  · exact hascii.1.trans (by decide)

/-! ## What the writer writes -/

/-- `event.event_digest = sha256_canonical(event_payload(event))`. -/
def AuditEvent.withDigest (event : AuditEvent) : AuditEvent :=
  { event with eventDigest := sha256Canonical (eventPayload event) }

theorem sealed_withDigest (hid : validIdentifier event.eventId = true)
    (hchain : validIdentifier event.auditChainId = true)
    (hprevious : event.previousEventDigest = [] ∨ validSha256 event.previousEventDigest = true) :
    event.withDigest.sealed = true := by
  have hempty : (event.previousEventDigest.isEmpty ||
      validSha256 event.previousEventDigest) = true := by
    rcases hprevious with hnil | hvalid
    · rw [hnil]
      rfl
    · rw [hvalid, Bool.or_true]
  have hdigest : validSha256 (sha256Canonical (eventPayload event)) = true := validSha256_sha256 _
  show (validIdentifier event.eventId && validIdentifier event.auditChainId &&
    validSha256 (sha256Canonical (eventPayload event)) &&
    (event.previousEventDigest.isEmpty || validSha256 event.previousEventDigest) &&
    sha256Canonical (eventPayload event) == sha256Canonical (eventPayload event)) = true
  rw [hid, hchain, hdigest, hempty, beq_self_eq_true]
  rfl

/-- The text that `append` writes. -/
def recordText (event : AuditEvent) : Bytes :=
  canonical (eventDocument event) ++ lineFeed

/-! ## One text for one event -/

theorem wellFormed_textMember (key : String) (text : Bytes) :
    ∀ w ∈ (textMember key text).2, WellFormed w := by
  intro w hw
  unfold textMember at hw
  split at hw
  · cases hw
  · cases hw
    trivial

theorem wellFormed_documentFields (event : AuditEvent) :
    ∀ field ∈ event.documentFields, ∀ w ∈ field.2, WellFormed w := by
  have hstring : ∀ (s : Bytes), ∀ w ∈ some (Value.string s), WellFormed w := by
    rintro s _ ⟨⟩
    trivial
  simp only [AuditEvent.documentFields, AuditEvent.payloadFields, AuditEvent.members,
    List.map_cons, List.map_nil, List.cons_append, List.nil_append, List.forall_mem_cons]
  refine ⟨hstring _, hstring _, hstring _, hstring _, hstring _, hstring _, ?_, hstring _, ?_,
    hstring _, ?_, wellFormed_textMember _ _, wellFormed_textMember _ _,
    wellFormed_textMember _ _, hstring _, List.forall_mem_nil _⟩
  · rintro _ ⟨⟩
    split
    · trivial
    · trivial
  · rintro _ ⟨⟩
    trivial
  · rintro _ ⟨⟩
    refine wellFormed_ofList (nodup_subject event) ?_
    simp only [List.forall_mem_cons]
    exact ⟨trivial, trivial, List.forall_mem_nil _⟩

theorem wellFormed_eventDocument (event : AuditEvent) : WellFormed (eventDocument event) := by
  rw [eventDocument_eq]
  exact wellFormed_document (nodup_documentFields event)
    fun key w hmem => wellFormed_documentFields event (key, some w) hmem w rfl

theorem wellFormed_eventPayload (event : AuditEvent) : WellFormed (eventPayload event) := by
  have hsublist : event.payloadFields.Sublist event.documentFields :=
    List.sublist_append_left _ _
  unfold eventPayload
  rw [payloadObject_eq]
  refine wellFormed_document ((nodup_documentFields event).sublist (hsublist.map Prod.fst)) ?_
  exact fun key w hmem => wellFormed_documentFields event (key, some w) (hsublist.subset hmem) w rfl

/-- The reader takes the event out of the text that was written. -/
theorem decode_recordText (hvalid : event.toAuditInput.valid = true) (hsealed : event.sealed = true)
    (hcreated : validUtf8 event.createdAt = true) (hmessage : validUtf8 event.message = true)
    (hshort : (recordText event).length ≤ maximumEventBytes) :
    decodeAuditEventRecord (recordText event) = .ok event := by
  have hreads := reads_eventDocument (rfl : _ = eventDocument event)
  exact decodeAuditEventRecord_eq_ok.mpr ⟨_, accepted_of_reads (wellFormed_eventDocument event)
    hreads hvalid hsealed hcreated hmessage hshort⟩

theorem recordText_length_le {event : AuditEvent} (hvalid : event.toAuditInput.valid = true)
    (hsealed : event.sealed = true) (hcreated : event.createdAt.length ≤ 4096) :
    (recordText event).length ≤ maximumEventBytes :=
  Reads.length_canonical_le (wellFormed_eventDocument event)
    (reads_eventDocument (rfl : _ = eventDocument event)) (texts_length_le hvalid hsealed hcreated)

/-- The document of a text has no empty member that the writer would not write. -/
def WritesNoEmptyMember (text : Bytes) : Prop :=
  ∀ o, parse text {} = .ok (.object o) → NoEmptyMember o

theorem Accepted.writesNoEmptyMember_iff (h : Accepted text o event) :
    WritesNoEmptyMember text ↔ .object o = eventDocument event := by
  rw [eq_eventDocument_iff h.wellFormed h.reads]
  constructor
  · exact fun hempty => hempty o h.parsed
  · intro hempty o' hparsed
    cases h.parsed.symm.trans hparsed
    exact hempty

/-- The text of an object ends with a brace, so the end of the line tells the two kinds apart. -/
theorem not_crlf_suffix (o : Object) :
    ¬carriageReturnLineFeed <:+ canonical (.object o) ++ lineFeed := by
  rintro ⟨rest, heq⟩
  have hreverse := congrArg List.reverse heq
  simp [canonical, lineFeed, carriageReturnLineFeed] at hreverse

theorem Accepted.ends_iff (h : Accepted text o event) :
    (text = canonical (.object o) ++ carriageReturnLineFeed ↔ carriageReturnLineFeed <:+ text) ∧
      (text = canonical (.object o) ++ lineFeed ↔ ¬carriageReturnLineFeed <:+ text) := by
  rcases h.ends with rfl | rfl
  · have hnot := not_crlf_suffix o
    exact ⟨⟨fun heq => heq ▸ List.suffix_append _ _, fun hsuffix => absurd hsuffix hnot⟩,
      fun _ => hnot, fun _ => rfl⟩
  · have hsuffix := List.suffix_append (canonical (.object o)) carriageReturnLineFeed
    exact ⟨⟨fun _ => hsuffix, fun _ => rfl⟩,
      fun heq => absurd hsuffix (heq ▸ not_crlf_suffix o), fun hnot => absurd hsuffix hnot⟩

/-- The reader takes nothing else out of the text that was written. -/
theorem decode_recordText_unique {event' : AuditEvent}
    (h : decodeAuditEventRecord (recordText event) = .ok event') : event' = event := by
  obtain ⟨o, ho⟩ := decodeAuditEventRecord_eq_ok.mp h
  have hcanonical := canonical_eq_of_line ho.ends (.inl rfl)
  have hobject := canonical_injective ho.wellFormed (wellFormed_eventDocument event) hcanonical
  exact ho.reads.unique (reads_eventDocument hobject)

/-- Two texts of one document with the same end of the line are the same. -/
theorem Accepted.text_unique {text' : Bytes} {event' : AuditEvent} (h : Accepted text o event)
    (h' : Accepted text' o event')
    (hends : carriageReturnLineFeed <:+ text ↔ carriageReturnLineFeed <:+ text') :
    text = text' := by
  by_cases hsuffix : carriageReturnLineFeed <:+ text
  · rw [h.ends_iff.1.mpr hsuffix, h'.ends_iff.1.mpr (hends.mp hsuffix)]
  · rw [h.ends_iff.2.mpr hsuffix, h'.ends_iff.2.mpr fun h' => hsuffix (hends.mpr h')]

/-! ## An empty member -/

/-- The text of an event with an empty transaction written into it. -/
def emptyTransactionText (event : AuditEvent) : Bytes :=
  canonical (.object (((payloadObject event).insert (ascii "event_digest")
    (.string event.eventDigest)).insert (ascii "transaction_id") (.string []))) ++ lineFeed

/-- The first event of a chain, of an operation without a transaction. -/
def sampleInput : AuditInput where
  createdAt := ascii "2026-07-14T00:00:02Z"
  operation := ascii "verify"
  phase := ascii "completed"
  status := ascii "pass"
  subjectType := ascii "installation"
  subjectId := ascii "install.fixture"
  detailsDigest := List.replicate 64 0x34
  transactionId := []
  planId := []
  message := ascii "fixture event"

def sampleEvent : AuditEvent :=
  AuditEvent.withDigest
    { sampleInput with
      eventId := ascii "audit.fixture.0"
      eventDigest := []
      auditChainId := ascii "audit.fixture"
      sequence := 0
      previousEventDigest := [] }

theorem sealed_sampleEvent : sampleEvent.sealed = true :=
  sealed_withDigest (by decide) (by decide) (.inl rfl)

theorem sampleInput_valid : sampleInput.valid = true := by
  decide

theorem sampleInput_utf8 : validUtf8 sampleInput.createdAt = true ∧
    validUtf8 sampleInput.message = true :=
  ⟨validUtf8_of_ascii (by decide +kernel), validUtf8_of_ascii (by decide +kernel)⟩

theorem decode_sampleEvent : decodeAuditEventRecord (recordText sampleEvent) = .ok sampleEvent :=
  decode_recordText sampleInput_valid sealed_sampleEvent sampleInput_utf8.1 sampleInput_utf8.2
    (recordText_length_le sampleInput_valid sealed_sampleEvent (by decide))

/-- An accepted text is the text that the writer makes of the event exactly if its document has no
empty member, and such a text is the only one of its event with its end of the line. -/
theorem record_text_of_event {text : Bytes} {event : AuditEvent}
    (h : decodeAuditEventRecord text = .ok event) :
    ((text = canonical (eventDocument event) ++ lineFeed ∨
        text = canonical (eventDocument event) ++ carriageReturnLineFeed) ↔
      WritesNoEmptyMember text) ∧
    ∀ text', decodeAuditEventRecord text' = .ok event →
      WritesNoEmptyMember text → WritesNoEmptyMember text' →
      (carriageReturnLineFeed <:+ text ↔ carriageReturnLineFeed <:+ text') → text = text' := by
  obtain ⟨o, ho⟩ := decodeAuditEventRecord_eq_ok.mp h
  refine ⟨⟨fun htext => ?_, fun hempty => ?_⟩, fun text' h' hempty hempty' hends => ?_⟩
  · have hcanonical := canonical_eq_of_line ho.ends htext
    exact ho.writesNoEmptyMember_iff.mpr
      (canonical_injective ho.wellFormed (wellFormed_eventDocument event) hcanonical)
  · rw [← ho.writesNoEmptyMember_iff.mp hempty]
    exact ho.ends
  · obtain ⟨o', ho'⟩ := decodeAuditEventRecord_eq_ok.mp h'
    have heq := ho.writesNoEmptyMember_iff.mp hempty
    have heq' := ho'.writesNoEmptyMember_iff.mp hempty'
    cases heq.trans heq'.symm
    exact ho.text_unique ho' hends

/-- The sample is written without an empty member. -/
theorem sampleEvent_record_text : decodeAuditEventRecord (recordText sampleEvent) =
    .ok sampleEvent ∧ WritesNoEmptyMember (recordText sampleEvent) :=
  ⟨decode_sampleEvent, (record_text_of_event decode_sampleEvent).1.mp (.inl rfl)⟩

/-- Two texts of the sample, one of them not the writer's. -/
theorem empty_transaction_accepted :
    decodeAuditEventRecord (emptyTransactionText sampleEvent) = .ok sampleEvent ∧
    decodeAuditEventRecord (recordText sampleEvent) = .ok sampleEvent ∧
    ¬(emptyTransactionText sampleEvent = canonical (eventDocument sampleEvent) ++ lineFeed ∨
      emptyTransactionText sampleEvent =
        canonical (eventDocument sampleEvent) ++ carriageReturnLineFeed) :=
  ⟨toOption_eq_some.mp (by decide +kernel), decode_sampleEvent, by decide +kernel⟩

end Usk.Audit
