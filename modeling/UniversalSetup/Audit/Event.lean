import UniversalSetup.Json.Line

/-!
# Audit events

An event of an audit chain is a JSON document with a digest over all its other members. The writer
leaves out the optional members that are empty and writes `null` for a missing predecessor; the
reader takes an event out of a document, builds the digested payload again from what it has read,
and compares. `Reads` says what the reader sees in a document, and with it when a document is the
one that the writer would have made.
-/

namespace Usk.Audit

open Json

variable {key : String} {s : Bytes} {o : Object}

/-- What a caller of `append` supplies. -/
structure AuditInput where
  createdAt : Bytes
  operation : Bytes
  phase : Bytes
  status : Bytes
  subjectType : Bytes
  subjectId : Bytes
  detailsDigest : Bytes
  transactionId : Bytes
  planId : Bytes
  message : Bytes
deriving DecidableEq

structure AuditEvent extends AuditInput where
  eventId : Bytes
  eventDigest : Bytes
  auditChainId : Bytes
  sequence : UInt64
  previousEventDigest : Bytes
deriving DecidableEq

variable {event event' : AuditEvent}

/-! ## Checks -/

/-- `exact_members`. -/
def exactMembers (value : Value) (required optional : List String) : Result Unit := do
  let members ← value.asObject
  demand ((required.map ascii).all (ByteMap.keys members).contains)
    "audit event lacks a required member"
  demand ((ByteMap.keys members).all ((required ++ optional).map ascii).contains)
    "audit event has an incompatible member"

def operations : List String :=
  ["inspect", "plan", "install_local", "verify", "repair", "move", "uninstall", "recovery"]

def phases : List String :=
  ["request", "validated", "planned", "staging", "verified", "committing", "completed", "refused",
    "failed", "recovery"]

def statuses : List String :=
  ["pass", "warn", "fail", "refused", "recovery_required"]

def subjects : List String :=
  ["source", "plan", "transaction", "installation", "ownership_manifest", "journal"]

/-- The condition of `validate_input`. -/
def AuditInput.valid (input : AuditInput) : Bool :=
  !input.createdAt.isEmpty && oneOf operations input.operation && oneOf phases input.phase &&
    oneOf statuses input.status && oneOf subjects input.subjectType &&
    validIdentifier input.subjectId && validSha256 input.detailsDigest &&
    (input.transactionId.isEmpty || validIdentifier input.transactionId) &&
    (input.planId.isEmpty || validIdentifier input.planId) &&
    decide (input.message.length ≤ 4096)

def validateInput (input : AuditInput) : Result Unit :=
  demand input.valid "audit event input is invalid"

/-! ## Documents -/

/-- `if (!text.empty()) object.emplace(key, Value(text));`. -/
def emplaceText (object : Object) (key : String) (text : Bytes) : Object :=
  if text.isEmpty then object else object.insert (ascii key) (.string text)

/-- The members that every payload has. -/
def AuditEvent.members (event : AuditEvent) : List (Bytes × Value) :=
  [(ascii "audit_chain_id", .string event.auditChainId),
    (ascii "created_at", .string event.createdAt),
    (ascii "details_digest", .string event.detailsDigest),
    (ascii "event_id", .string event.eventId),
    (ascii "operation", .string event.operation),
    (ascii "phase", .string event.phase),
    (ascii "previous_event_digest",
      if event.previousEventDigest.isEmpty then .null else .string event.previousEventDigest),
    (ascii "schema", .string (ascii "usk.audit_event.v1")),
    (ascii "sequence", .unsigned event.sequence),
    (ascii "status", .string event.status),
    (ascii "subject", .object (ByteMap.ofList [
      (ascii "subject_id", .string event.subjectId),
      (ascii "subject_type", .string event.subjectType)]))]

/-- The object of `event_payload`. -/
def payloadObject (event : AuditEvent) : Object :=
  let object := ByteMap.ofList event.members
  let object := emplaceText object "transaction_id" event.transactionId
  let object := emplaceText object "plan_id" event.planId
  emplaceText object "message" event.message

def eventPayload (event : AuditEvent) : Value :=
  .object (payloadObject event)

def eventDocument (event : AuditEvent) : Value :=
  .object ((payloadObject event).insert (ascii "event_digest") (.string event.eventDigest))

/-! ## Reading -/

def requiredMembers : List String :=
  ["schema", "event_id", "event_digest", "audit_chain_id", "sequence", "previous_event_digest",
    "created_at", "operation", "phase", "status", "subject", "details_digest"]

def optionalMembers : List String :=
  ["transaction_id", "plan_id", "message"]

/-- `if (value.contains(key)) text = value.at(key).as_string();`. -/
def memberText (value : Value) (key : String) : Result Bytes :=
  if value.contains key then value.getString key else .ok []

/-- `null` is the empty text. -/
def nullableText (value : Value) : Result Bytes :=
  if value.isNull then .ok [] else value.asString

/-- The members that `append` chooses. -/
def readIdentity (value : Value) : Result (AuditInput → AuditEvent) := do
  let eventId ← value.getString "event_id"
  let eventDigest ← value.getString "event_digest"
  let auditChainId ← value.getString "audit_chain_id"
  let sequence ← (← value.get "sequence").asUnsigned
  let previousEventDigest ← nullableText (← value.get "previous_event_digest")
  pure fun input =>
    { toAuditInput := input
      eventId := eventId
      eventDigest := eventDigest
      auditChainId := auditChainId
      sequence := sequence
      previousEventDigest := previousEventDigest }

/-- The members that the caller of `append` chose. -/
def readInput (value : Value) : Result AuditInput := do
  let createdAt ← value.getString "created_at"
  let operation ← value.getString "operation"
  let phase ← value.getString "phase"
  let status ← value.getString "status"
  let subject ← value.get "subject"
  exactMembers subject ["subject_type", "subject_id"] []
  let subjectType ← subject.getString "subject_type"
  let subjectId ← subject.getString "subject_id"
  let detailsDigest ← value.getString "details_digest"
  let transactionId ← memberText value "transaction_id"
  let planId ← memberText value "plan_id"
  let message ← memberText value "message"
  pure
    { createdAt := createdAt
      operation := operation
      phase := phase
      status := status
      subjectType := subjectType
      subjectId := subjectId
      detailsDigest := detailsDigest
      transactionId := transactionId
      planId := planId
      message := message }

/-- The last check of `parse_event`. -/
def AuditEvent.sealed (event : AuditEvent) : Bool :=
  validIdentifier event.eventId && validIdentifier event.auditChainId &&
    validSha256 event.eventDigest &&
    (event.previousEventDigest.isEmpty || validSha256 event.previousEventDigest) &&
    sha256Canonical (eventPayload event) == event.eventDigest

def parseEvent (value : Value) : Result AuditEvent := do
  exactMembers value requiredMembers optionalMembers
  demandString value "schema" (· == ascii "usk.audit_event.v1")
    "audit event schema is incompatible"
  let identity ← readIdentity value
  let input ← readInput value
  validateInput input
  demand (identity input).sealed "audit event identity or canonical digest is invalid"
  pure (identity input)

/-- `1024u * 1024u`, the bound of the text of an event. -/
def maximumEventBytes : Nat := 1024 * 1024

def decodeAuditEventRecord (text : Bytes) : Result AuditEvent := do
  demand (decide (text.length ≤ maximumEventBytes)) "audit event exceeds its byte bound"
  let document ← readLine text "audit event is not canonical"
  parseEvent document

/-- `filename`. -/
def filename (sequence : UInt64) : Bytes :=
  padded 20 sequence.toNat ++ ascii ".event.json"

def decodeAuditChainRecord (text chainId recordName : Bytes) (sequence : UInt64)
    (previousDigest : Bytes) : Result AuditEvent := do
  demand (validIdentifier chainId) "audit chain id is invalid"
  let event ← decodeAuditEventRecord text
  demand (event.auditChainId == chainId && event.sequence == sequence &&
      event.eventId == chainId ++ 0x2e :: decimal sequence.toNat &&
      event.previousEventDigest == previousDigest && recordName == filename sequence)
    "audit chain sequence or previous digest is invalid"
  pure event

/-! ## What the reader sees -/

theorem exactMembers_object {required optional : List String} {u : Unit} :
    exactMembers (.object o) required optional = .ok u ↔
      (∀ key ∈ required, ascii key ∈ ByteMap.keys o) ∧
        ∀ k ∈ ByteMap.keys o, k ∈ (required ++ optional).map ascii := by
  simp only [exactMembers, bind_eq_ok, asObject_eq_ok, demand_eq_ok, List.all_eq_true,
    List.contains_iff_mem, List.forall_mem_map]
  constructor
  · rintro ⟨_, he, -, hrequired, hallowed⟩
    cases he
    exact ⟨hrequired, hallowed⟩
  · rintro ⟨hrequired, hallowed⟩
    exact ⟨o, rfl, (), hrequired, hallowed⟩

/-- A member that may be missing and is then the empty text. -/
def IsText (found : Option Value) (s : Bytes) : Prop :=
  (found = none ∧ s = []) ∨ found = some (.string s)

/-- A member that may be `null` and is then the empty text. -/
def IsNullableText (found : Option Value) (s : Bytes) : Prop :=
  (found = some .null ∧ s = []) ∨ found = some (.string s)

theorem memberText_object : memberText (.object o) key = .ok s ↔ IsText (o.find (ascii key)) s := by
  have hcontains : (Value.object o).contains key = (o.find (ascii key)).isSome := rfl
  unfold memberText IsText
  rw [hcontains]
  cases hf : o.find (ascii key) with
  | none => simp [eq_comm]
  | some w =>
    rw [Option.isSome_some, if_pos rfl, getString_eq_ok, get_object, hf]
    simp

/-- What the reader sees of an event in an object. -/
structure Reads (o : Object) (event : AuditEvent) : Prop where
  allowed : ∀ k ∈ ByteMap.keys o, k ∈ (requiredMembers ++ optionalMembers).map ascii
  schema : o.find (ascii "schema") = some (.string (ascii "usk.audit_event.v1"))
  eventId : o.find (ascii "event_id") = some (.string event.eventId)
  eventDigest : o.find (ascii "event_digest") = some (.string event.eventDigest)
  auditChainId : o.find (ascii "audit_chain_id") = some (.string event.auditChainId)
  sequence : o.find (ascii "sequence") = some (.unsigned event.sequence)
  previous : IsNullableText (o.find (ascii "previous_event_digest")) event.previousEventDigest
  createdAt : o.find (ascii "created_at") = some (.string event.createdAt)
  operation : o.find (ascii "operation") = some (.string event.operation)
  phase : o.find (ascii "phase") = some (.string event.phase)
  status : o.find (ascii "status") = some (.string event.status)
  subject : ∃ s, o.find (ascii "subject") = some (.object s) ∧
    (∀ k ∈ ByteMap.keys s, k ∈ ["subject_type", "subject_id"].map ascii) ∧
    ByteMap.find s (ascii "subject_type") = some (.string event.subjectType) ∧
    ByteMap.find s (ascii "subject_id") = some (.string event.subjectId)
  detailsDigest : o.find (ascii "details_digest") = some (.string event.detailsDigest)
  transactionId : IsText (o.find (ascii "transaction_id")) event.transactionId
  planId : IsText (o.find (ascii "plan_id")) event.planId
  message : IsText (o.find (ascii "message")) event.message

theorem nullableText_eq_ok {w : Value} : nullableText w = .ok s ↔ IsNullableText (some w) s := by
  unfold nullableText IsNullableText
  cases w with
  | null => simp [Value.isNull, eq_comm]
  | string t => simp [Value.isNull, Value.asString]
  | boolean b => simp [Value.isNull, Value.asString]
  | unsigned n => simp [Value.isNull, Value.asString]
  | array vs => simp [Value.isNull, Value.asString]
  | object o => simp [Value.isNull, Value.asString]

theorem IsNullableText.found {found : Option Value} (h : IsNullableText found s) :
    ∃ w, found = some w ∧ nullableText w = .ok s := by
  rcases h with ⟨rfl, rfl⟩ | rfl
  · exact ⟨_, rfl, rfl⟩
  · exact ⟨_, rfl, rfl⟩

/-- The members that the two readers ask for are there. -/
theorem Reads.required (h : Reads o event) :
    ∀ key ∈ requiredMembers, ascii key ∈ ByteMap.keys o := by
  obtain ⟨w, hprevious, -⟩ := h.previous.found
  obtain ⟨s, hsubject, -⟩ := h.subject
  have hmem : ∀ {key : String} {w : Value}, o.find (ascii key) = some w →
      ascii key ∈ ByteMap.keys o := fun hf => List.mem_map_of_mem (mem_of_find hf)
  simp only [requiredMembers, List.forall_mem_cons]
  exact ⟨hmem h.schema, hmem h.eventId, hmem h.eventDigest, hmem h.auditChainId, hmem h.sequence,
    hmem hprevious, hmem h.createdAt, hmem h.operation, hmem h.phase, hmem h.status, hmem hsubject,
    hmem h.detailsDigest, List.forall_mem_nil _⟩

theorem readIdentity_of_reads (h : Reads o event) :
    readIdentity (.object o) = .ok fun input => ⟨input, event.eventId, event.eventDigest,
      event.auditChainId, event.sequence, event.previousEventDigest⟩ := by
  obtain ⟨w, hprevious, htext⟩ := h.previous.found
  simp only [readIdentity, bind_eq_ok, getString_eq_ok, get_object, asUnsigned_eq_ok]
  exact ⟨_, h.eventId, _, h.eventDigest, _, h.auditChainId, _, h.sequence, _, rfl, w, hprevious, _,
    htext, rfl⟩

theorem readInput_of_reads (h : Reads o event) :
    readInput (.object o) = .ok event.toAuditInput := by
  obtain ⟨s, hsubject, hallowed, htype, hid⟩ := h.subject
  have hmembers : exactMembers (.object s) ["subject_type", "subject_id"] [] = .ok () := by
    refine exactMembers_object.mpr ⟨?_, hallowed⟩
    simp only [List.forall_mem_cons]
    exact ⟨List.mem_map_of_mem (mem_of_find htype), List.mem_map_of_mem (mem_of_find hid),
      List.forall_mem_nil _⟩
  simp only [readInput, bind_eq_ok, getString_eq_ok, get_object, memberText_object]
  exact ⟨_, h.createdAt, _, h.operation, _, h.phase, _, h.status, _, hsubject, (), hmembers, _,
    get_object.mpr htype, _, get_object.mpr hid, _, h.detailsDigest, _, h.transactionId, _,
      h.planId,
    _, h.message, rfl⟩

theorem reads_of_read {o : Object} {identity : AuditInput → AuditEvent} {input : AuditInput}
    {u u' : Unit} (hmembers : exactMembers (.object o) requiredMembers optionalMembers = .ok u)
    (hschema : demandString (.object o) "schema" (· == ascii "usk.audit_event.v1")
      "audit event schema is incompatible" = .ok u')
    (hidentity : readIdentity (.object o) = .ok identity)
    (hinput : readInput (.object o) = .ok input) : Reads o (identity input) := by
  have hallowed := (exactMembers_object.mp hmembers).2
  simp only [demandString_eq_ok, get_object, beq_iff_eq] at hschema
  simp only [readIdentity, bind_eq_ok, getString_eq_ok, get_object, asUnsigned_eq_ok] at hidentity
  simp only [readInput, bind_eq_ok, getString_eq_ok, get_object, memberText_object] at hinput
  obtain ⟨_, hschema, rfl⟩ := hschema
  obtain ⟨_, hid, _, hdigest, _, hchain, _, hseq, _, rfl, w, hw, _, hprevious, h⟩ := hidentity
  obtain ⟨_, hcreated, _, hoperation, _, hphase, _, hstatus, subject, hsubject, _, hexact, _, htype,
    _, hsubjectId, _, hdetails, _, htransaction, _, hplan, _, hmessage, h'⟩ := hinput
  cases h
  cases h'
  obtain ⟨s, rfl, -⟩ := get_eq_ok.mp htype
  rw [get_object] at htype hsubjectId
  exact ⟨hallowed, hschema, hid, hdigest, hchain, hseq, hw ▸ nullableText_eq_ok.mp hprevious,
    hcreated, hoperation, hphase, hstatus,
    ⟨s, hsubject, (exactMembers_object.mp hexact).2, htype, hsubjectId⟩, hdetails, htransaction,
    hplan, hmessage⟩

/-- An event is read out of an object if the object shows it and its digest is right. -/
theorem parseEvent_object :
    parseEvent (.object o) = .ok event ↔
      Reads o event ∧ event.toAuditInput.valid = true ∧ event.sealed = true := by
  constructor
  · intro h
    simp only [parseEvent, bind_eq_ok] at h
    obtain ⟨_, hmembers, _, hschema, identity, hidentity, input, hinput, _, hvalid, _, hsealed,
      h⟩ := h
    have hreads := reads_of_read hmembers hschema hidentity hinput
    simp only [readIdentity, bind_eq_ok] at hidentity
    obtain ⟨_, -, _, -, _, -, _, -, _, -, _, -, _, -, hidentity⟩ := hidentity
    cases hidentity
    cases h
    exact ⟨hreads, demand_eq_ok.mp hvalid, demand_eq_ok.mp hsealed⟩
  · rintro ⟨h, hvalid, hsealed⟩
    simp only [parseEvent, bind_eq_ok]
    refine ⟨(), exactMembers_object.mpr ⟨h.required, h.allowed⟩, (), ?_, _,
      readIdentity_of_reads h, _, readInput_of_reads h, (), demand_eq_ok.mpr hvalid, (),
      demand_eq_ok.mpr hsealed, rfl⟩
    exact demandString_eq_ok.mpr ⟨_, get_object.mpr h.schema, beq_self_eq_true _⟩

theorem parseEvent_eq_ok {v : Value} (h : parseEvent v = .ok event) :
    ∃ o, v = .object o ∧ Reads o event ∧ event.toAuditInput.valid = true ∧ event.sealed = true := by
  have hobject := h
  simp only [parseEvent, exactMembers, bind_eq_ok, asObject_eq_ok] at hobject
  obtain ⟨_, ⟨o, rfl, -⟩, -⟩ := hobject
  exact ⟨o, rfl, parseEvent_object.mp h⟩

/-- What the reader sees determines the event. -/
theorem Reads.unique (h : Reads o event) (h' : Reads o event') : event = event' := by
  have hinput := (readInput_of_reads h).symm.trans (readInput_of_reads h')
  have hidentity := (readIdentity_of_reads h).symm.trans (readIdentity_of_reads h')
  calc event = ⟨event.toAuditInput, event'.eventId, event'.eventDigest, event'.auditChainId,
          event'.sequence, event'.previousEventDigest⟩ :=
        congrFun (Except.ok.inj hidentity) event.toAuditInput
    _ = event' := by rw [Except.ok.inj hinput]

/-! ## What the writer makes -/

/-- A member that is left out when it is empty. -/
def textMember (key : String) (text : Bytes) : Bytes × Option Value :=
  (ascii key, if text.isEmpty then none else some (.string text))

theorem emplaceText_ofList (ms : List (Bytes × Value)) (key : String) (text : Bytes) :
    emplaceText (ByteMap.ofList ms) key text =
      ByteMap.ofList (ms ++ present [textMember key text]) := by
  unfold emplaceText textMember
  split
  · exact congrArg ByteMap.ofList (List.append_nil ms).symm
  · exact (ofList_concat ms (ascii key, .string text)).symm

/-- The members of a payload, those that may be left out at the end. -/
def AuditEvent.payloadFields (event : AuditEvent) : List (Bytes × Option Value) :=
  (event.members.map fun m => (m.1, some m.2)) ++
    [textMember "transaction_id" event.transactionId, textMember "plan_id" event.planId,
      textMember "message" event.message]

theorem payloadObject_eq (event : AuditEvent) :
    payloadObject event = ByteMap.ofList (present event.payloadFields) := by
  have hlast : ∀ a b c : Bytes × Option Value,
      present [a, b, c] = present [a] ++ (present [b] ++ present [c]) := by
    intro a b c
    rw [← present_append, ← present_append]
    rfl
  unfold payloadObject AuditEvent.payloadFields
  rw [present_append, present_some, hlast]
  simp only [emplaceText_ofList, List.append_assoc]

/-- The members of a document. -/
def AuditEvent.documentFields (event : AuditEvent) : List (Bytes × Option Value) :=
  event.payloadFields ++ [(ascii "event_digest", some (.string event.eventDigest))]

theorem eventDocument_eq (event : AuditEvent) :
    eventDocument event = .object (ByteMap.ofList (present event.documentFields)) := by
  unfold eventDocument AuditEvent.documentFields
  rw [payloadObject_eq, present_append]
  exact congrArg Value.object (ofList_concat _ (ascii "event_digest", _)).symm

theorem keys_documentFields (event : AuditEvent) : event.documentFields.map Prod.fst =
    ["audit_chain_id", "created_at", "details_digest", "event_id", "operation", "phase",
      "previous_event_digest", "schema", "sequence", "status", "subject", "transaction_id",
      "plan_id", "message", "event_digest"].map ascii :=
  rfl

theorem nodup_documentFields (event : AuditEvent) :
    (event.documentFields.map Prod.fst).Nodup := by
  rw [keys_documentFields]
  decide

theorem mem_keys_documentFields (event : AuditEvent) {k : Bytes} :
    k ∈ event.documentFields.map Prod.fst ↔ k ∈ (requiredMembers ++ optionalMembers).map ascii := by
  rw [keys_documentFields]
  exact List.Perm.mem_iff (by decide)

theorem find_eventDocument (h : .object o = eventDocument event) {key : Bytes}
    {value : Option Value} (hmem : (key, value) ∈ event.documentFields) : o.find key = value := by
  rw [eventDocument_eq] at h
  cases h
  exact find_document (nodup_documentFields event) hmem

theorem isText_textMember (key : String) (text : Bytes) : IsText (textMember key text).2 text := by
  unfold textMember IsText
  cases text with
  | nil => exact .inl ⟨rfl, rfl⟩
  | cons c rest => exact .inr rfl

/-- The reader sees in a document the event that it was made of. -/
theorem reads_eventDocument (h : .object o = eventDocument event) : Reads o event := by
  have hfind : ∀ (i : Nat) {key : Bytes} {value : Option Value},
      event.documentFields[i]? = some (key, value) → o.find key = value :=
    fun _ _ _ hi => find_eventDocument h (List.mem_of_getElem? hi)
  have hallowed : ∀ k ∈ ByteMap.keys o, k ∈ (requiredMembers ++ optionalMembers).map ascii := by
    intro k hk
    rw [eventDocument_eq] at h
    cases h
    obtain ⟨w, hw⟩ := (mem_keys_document (nodup_documentFields event)).mp hk
    exact (mem_keys_documentFields event).mp (List.mem_map_of_mem hw)
  have hprevious : IsNullableText (o.find (ascii "previous_event_digest"))
      event.previousEventDigest := by
    rw [hfind 6 rfl]
    unfold IsNullableText
    cases event.previousEventDigest with
    | nil => exact .inl ⟨rfl, rfl⟩
    | cons c rest => exact .inr rfl
  have hsubject : (ByteMap.keys (ByteMap.ofList [
      (ascii "subject_id", Value.string event.subjectId),
      (ascii "subject_type", Value.string event.subjectType)])) =
      ["subject_id", "subject_type"].map ascii := rfl
  refine ⟨hallowed, hfind 7 rfl, hfind 3 rfl, hfind 14 rfl, hfind 0 rfl, hfind 8 rfl, hprevious,
    hfind 1 rfl, hfind 4 rfl, hfind 5 rfl, hfind 9 rfl, ⟨_, hfind 10 rfl, ?_, rfl, rfl⟩,
      hfind 2 rfl,
    ?_, ?_, ?_⟩
  · rw [hsubject]
    decide
  · exact hfind 11 rfl ▸ isText_textMember "transaction_id" event.transactionId
  · exact hfind 12 rfl ▸ isText_textMember "plan_id" event.planId
  · exact hfind 13 rfl ▸ isText_textMember "message" event.message

/-- No member of the document is the empty text where the writer leaves the member out or writes
`null`. -/
def NoEmptyMember (o : Object) : Prop :=
  ∀ key ∈ "previous_event_digest" :: optionalMembers, o.find (ascii key) ≠ some (.string [])

theorem IsText.eq_textMember {text : Bytes} (h : IsText (o.find (ascii key)) text)
    (hne : o.find (ascii key) ≠ some (.string [])) :
    o.find (textMember key text).1 = (textMember key text).2 := by
  unfold textMember
  rcases h with ⟨hnone, rfl⟩ | hsome
  · exact hnone
  · cases text with
    | nil => exact absurd hsome hne
    | cons c rest => exact hsome

theorem textMember_ne_empty (key : String) (text : Bytes) :
    (textMember key text).2 ≠ some (.string []) := by
  unfold textMember
  cases text with
  | nil => exact fun h => nomatch h
  | cons c rest => exact fun h => nomatch h

theorem noEmptyMember_eventDocument (h : .object o = eventDocument event) : NoEmptyMember o := by
  have hfind : ∀ (i : Nat) {key : Bytes} {value : Option Value},
      event.documentFields[i]? = some (key, value) → o.find key = value :=
    fun _ _ _ hi => find_eventDocument h (List.mem_of_getElem? hi)
  have hprevious : o.find (ascii "previous_event_digest") ≠ some (.string []) := by
    rw [hfind 6 rfl]
    cases event.previousEventDigest with
    | nil => exact fun h => nomatch h
    | cons c rest => exact fun h => nomatch h
  simp only [NoEmptyMember, optionalMembers, List.forall_mem_cons]
  refine ⟨hprevious, ?_, ?_, ?_, List.forall_mem_nil _⟩
  · exact hfind 11 rfl ▸ textMember_ne_empty "transaction_id" event.transactionId
  · exact hfind 12 rfl ▸ textMember_ne_empty "plan_id" event.planId
  · exact hfind 13 rfl ▸ textMember_ne_empty "message" event.message

theorem Reads.subject_eq (hw : WellFormed (.object o)) (h : Reads o event) :
    o.find (ascii "subject") = some (.object (ByteMap.ofList [
      (ascii "subject_id", .string event.subjectId),
      (ascii "subject_type", .string event.subjectType)])) := by
  obtain ⟨s, hsubject, hallowed, htype, hid⟩ := h.subject
  have hs := (wellFormed_object.mp ((wellFormed_object.mp hw).2 _ (mem_of_find hsubject))).1
  rw [hsubject]
  refine congrArg (some ∘ Value.object) (eq_ofList_of_members hs ?_ (fun k hk => ?_) ?_)
  · show (["subject_id", "subject_type"].map ascii).Nodup
    decide
  · have hperm : (["subject_type", "subject_id"].map ascii).Perm
        (["subject_id", "subject_type"].map ascii) := List.Perm.swap _ _ _
    exact hperm.mem_iff.mp (hallowed k hk)
  · simp only [List.forall_mem_cons]
    exact ⟨hid, htype, List.forall_mem_nil _⟩

/-- A document that shows an event is the one that the writer makes of it, unless it has an empty
member that the writer would not write. -/
theorem eq_eventDocument_iff (hw : WellFormed (.object o)) (h : Reads o event) :
    .object o = eventDocument event ↔ NoEmptyMember o := by
  refine ⟨noEmptyMember_eventDocument, fun hempty => ?_⟩
  have hsorted := (wellFormed_object.mp hw).1
  simp only [NoEmptyMember, optionalMembers, List.forall_mem_cons] at hempty
  obtain ⟨hprevious, htransaction, hplan, hmessage, -⟩ := hempty
  have hpreviousField : o.find (ascii "previous_event_digest") =
      some (if event.previousEventDigest.isEmpty then .null
        else .string event.previousEventDigest) := by
    rcases h.previous with ⟨hnull, hnil⟩ | hstring
    · rw [hnull, hnil]
      rfl
    · cases htext : event.previousEventDigest with
      | nil => exact absurd (htext ▸ hstring) hprevious
      | cons c rest =>
        rw [hstring, htext]
        rfl
  rw [eventDocument_eq]
  refine congrArg Value.object
    (eq_document hsorted (nodup_documentFields event) (fun k hk => ?_) ?_)
  · exact (mem_keys_documentFields event).mpr (h.allowed k hk)
  · simp only [AuditEvent.documentFields, AuditEvent.payloadFields, AuditEvent.members,
      List.map_cons, List.map_nil, List.cons_append, List.nil_append, List.forall_mem_cons]
    exact ⟨h.auditChainId, h.createdAt, h.detailsDigest, h.eventId, h.operation, h.phase,
      hpreviousField, h.schema, h.sequence, h.status, h.subject_eq hw,
      h.transactionId.eq_textMember htransaction, h.planId.eq_textMember hplan,
      h.message.eq_textMember hmessage, h.eventDigest, List.forall_mem_nil _⟩

/-- The digested payload and the digest determine the event. -/
theorem eq_of_eventPayload_eq (hpayload : eventPayload event = eventPayload event')
    (hdigest : event.eventDigest = event'.eventDigest) : event = event' := by
  have hdocument : eventDocument event = eventDocument event' := by
    unfold eventDocument
    rw [Value.object.inj hpayload, hdigest]
  exact (reads_eventDocument (rfl : _ = eventDocument event)).unique
    (reads_eventDocument hdocument)

end Usk.Audit
