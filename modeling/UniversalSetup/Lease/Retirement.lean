import UniversalSetup.Lease.History

/-!
# Lease histories of a retired installation

`decode_owned_retirement_lease_history` reads all lease records of one installation, the oldest
first. Every operation has to be completed there. An operation that was completed may come up again,
as the recovery of a finished operation does, but then nothing in it moves the installed state.

A history falls into spans, each of which ends with the completion of its operation. The decoder
accepts the recorded histories whose spans are in order, and returns the two ends of each span.
-/

namespace Usk.Lease

open Json

variable {u : Unit} {result : Bytes} {p : Ownership} {rest : List Ownership}

/-! ## The decoder -/

structure OwnedRetirementLeaseCompletion where
  originalActive : Value
  completed : Value
  repeatedCompletion : Bool

def incompleteHistory : String :=
  "owned retirement lease history is incomplete or inconsistent"

/-- The operations that a retired installation may have gone through. -/
def retirementOperations : List Bytes :=
  ["install_local", "repair", "uninstall"].map ascii

/-- The variables of the loop. -/
structure Retirement where
  previous : Option Value := none
  original : Option Value := none
  completedOperations : List (Bytes × Nat) := []
  result : List OwnedRetirementLeaseCompletion := []
  isRepeated : Bool := false

/-- `same(left.at(key), right.at(key'))`. -/
def demandSame (left : Value) (key : String) (right : Value) (key' : String) : Result Unit := do
  let l ← left.get key
  let r ← right.get key'
  demand (equalValues l r) incompleteHistory

/-- What an operation that was completed before has to keep to. -/
def checkRepeated (previous : Option Value) (first record : Value) (operation : Bytes) :
    Result Unit :=
  match previous with
  | none => .error incompleteHistory
  | some previous => do
    demandString previous "status" (· == ascii "completed") incompleteHistory
    demandString first "operation" (· == operation) incompleteHistory
    demandSame first "operation_context_sha256" record "operation_context_sha256"
    let result ← previous.getString "result_state_revision"
    demandString record "expected_state_revision" (· == result) incompleteHistory

/-- The first record of a span. -/
def openSpan (s : Retirement) (record : Value) (operation id : Bytes) : Result Retirement := do
  demand (s.previous.isSome || operation == ascii "install_local") incompleteHistory
  match s.completedOperations.lookup id with
  | none => pure { s with isRepeated := false, original := some record }
  | some index =>
    match s.result[index]? with
    | none => .error "vector::_M_range_check"
    | some first => do
      checkRepeated s.previous first.originalActive record operation
      pure { s with isRepeated := true, original := some record }

/-- A later active record of a span. -/
def continueSpan (s : Retirement) (original record : Value) (operation id : Bytes) :
    Result Retirement := do
  demandString original "operation" (· == operation) incompleteHistory
  demandString original "operation_id" (· == id) incompleteHistory
  demandSame original "operation_context_sha256" record "operation_context_sha256"
  if s.isRepeated then
    demandSame original "expected_state_revision" record "expected_state_revision"
  pure s

/-- What the loop does with a record by its status. -/
def spanRecord (s : Retirement) (record : Value) (operation id status : Bytes) :
    Result Retirement :=
  match s.original with
  | none =>
    if status == ascii "active" then openSpan s record operation id else .error incompleteHistory
  | some original =>
    if status == ascii "active" then continueSpan s original record operation id
    else do
      if s.isRepeated then
        demandSame original "expected_state_revision" record "result_state_revision"
      pure s

/-- The end of a span. -/
def closeSpan (s : Retirement) (record : Value) (id status : Bytes) : Result Retirement :=
  if status == ascii "completed" then
    match s.original with
    | none => .error incompleteHistory
    | some original =>
      let result := s.result ++ [⟨original, record, s.isRepeated⟩]
      if s.isRepeated then do
        demandSame original "expected_state_revision" record "result_state_revision"
        pure { s with result, original := none }
      else do
        demand (s.completedOperations.lookup id).isNone incompleteHistory
        pure { s with
          completedOperations := s.completedOperations ++ [(id, s.result.length)]
          result, original := none }
  else .ok s

/-- One turn of the loop. -/
def retireRecord (installId : Bytes) (root : Value) (s : Retirement) (record : Value) :
    Result Retirement := do
  requireInstallLeaseRecord record
  demandString record "install_id" (· == installId) incompleteHistory
  demand (equalValues (← record.get "state_root_identity") root) incompleteHistory
  let operation ← record.getString "operation"
  let id ← record.getString "operation_id"
  demand (retirementOperations.contains operation) incompleteHistory
  let status ← record.getString "status"
  demand (status == ascii "active" || s.previous.isSome && s.original.isSome) incompleteHistory
  let expected ← expectedRecord s.previous root installId record
  let s ← spanRecord s record operation id status
  demand (equalValues record expected) incompleteHistory
  let s ← closeSpan s record id status
  pure { s with previous := some record }

def retireRecords (installId : Bytes) (root : Value) : List Value → Retirement → Result Retirement
  | [], s => .ok s
  | record :: rest, s => do
    let s ← retireRecord installId root s record
    retireRecords installId root rest s

/-- The last record has to complete the last operation, at the current revision. -/
def checkRetired (s : Retirement) (currentRevision : Bytes) : Result Unit :=
  match s.previous with
  | none => .error incompleteHistory
  | some previous => do
    demand s.original.isNone incompleteHistory
    demandString previous "status" (· == ascii "completed") incompleteHistory
    demandString previous "result_state_revision" (· == currentRevision) incompleteHistory

/-- `decode_owned_retirement_lease_history`. -/
def decodeOwnedRetirementLeaseHistory (history : List Value) (installId : Bytes)
    (stateRootIdentity : Value) (currentRevision : Bytes) :
    Result (List OwnedRetirementLeaseCompletion) := do
  demand (!history.isEmpty && decide (history.length ≤ 4096)) incompleteHistory
  demand (hex currentRevision 64) incompleteHistory
  let s ← retireRecords installId stateRootIdentity history {}
  checkRetired s currentRevision
  pure s.result

/-! ## Spans -/

/-- The records of one operation up to its completion. -/
structure Span where
  original : Ownership
  between : List Ownership := []
  completion : Ownership

variable {span : Span}

/-- The revision that a finished record leaves. -/
def Status.revision : Status → Option Bytes
  | .active => none
  | .completed revision => some revision
  | .handoff revision => some revision

namespace Span

def records (span : Span) : List Ownership :=
  span.original :: (span.between ++ [span.completion])

def operationId (span : Span) : Bytes :=
  span.completion.operationId

/-- A span starts with an active record, is about one operation and ends where it is completed. -/
structure Closed (span : Span) : Prop where
  active : span.original.status = .active
  unfinished : ∀ o ∈ span.between, ∀ result, o.status ≠ .completed result
  completed : ∃ result, span.completion.status = .completed result
  same : ∀ o ∈ span.records, span.original.SameOperation o

/-- The operation of the span was completed before. -/
def later (before : List Span) (span : Span) : Bool :=
  before.any fun earlier => earlier.operationId == span.operationId

end Span

/-- A record that finds a revision and leaves it. -/
def Ownership.Keeps (o : Ownership) (revision : Bytes) : Prop :=
  o.expectedStateRevision = revision ∧ ∀ result ∈ o.status.revision, result = revision

/-- What the span of an operation that was completed before has to keep to. -/
structure Repeats (before : List Span) (span : Span) : Prop where
  operation : ∀ earlier ∈ before, earlier.operationId = span.operationId →
    earlier.original.SameOperation span.original
  revision : ∀ preceding revision, before.getLast? = some preceding →
    preceding.completion.status = .completed revision → ∀ o ∈ span.records, o.Keeps revision

/-- What is returned for the spans, after those that were read `before`. -/
def completions (before : List Span) : List Span → List OwnedRetirementLeaseCompletion
  | [] => []
  | span :: rest =>
    ⟨span.original.value, span.completion.value, span.later before⟩ ::
      completions (before ++ [span]) rest

/-- Spans in order: the later spans of an operation repeat the first one. -/
def Ordered (spans : List Span) : Prop :=
  ∀ before span after, spans = before ++ span :: after → span.later before = true →
    Repeats before span

/-! ## The loop on ownerships -/

/-- The variables of the loop, with the spans that it has closed and the one that is open. -/
structure Scan where
  closed : List (Span × Bool) := []
  pending : Option (Ownership × List Ownership) := none
  operations : List (Bytes × Nat) := []
  isRepeated : Bool := false

variable {scan' scan : Scan}

def Scan.retirement (s : Scan) (previous : Option Ownership) : Retirement where
  previous := previous.map Ownership.value
  original := s.pending.map fun pending => pending.1.value
  completedOperations := s.operations
  result := s.closed.map fun e => ⟨e.1.original.value, e.1.completion.value, e.2⟩
  isRepeated := s.isRepeated

/-- What one record does to the scan. -/
inductive Scans (previous : Option Ownership) : Scan → Ownership → Scan → Prop
  | start {closed : List (Span × Bool)} {operations : List (Bytes × Nat)} {flag : Bool}
      {o : Ownership} : o.status = .active →
      (previous = none → o.operation = ascii "install_local") →
      operations.lookup o.operationId = none →
      Scans previous ⟨closed, none, operations, flag⟩ o ⟨closed, some (o, []), operations, false⟩
  | again {closed : List (Span × Bool)} {operations : List (Bytes × Nat)} {flag : Bool}
      {o p : Ownership} {index : Nat} {first : Span × Bool} : o.status = .active →
      operations.lookup o.operationId = some index → closed[index]? = some first →
      previous = some p → p.status = .completed o.expectedStateRevision →
      first.1.original.operation = o.operation →
      first.1.original.operationContextSha256 = o.operationContextSha256 →
      Scans previous ⟨closed, none, operations, flag⟩ o ⟨closed, some (o, []), operations, true⟩
  | proceed {closed : List (Span × Bool)} {operations : List (Bytes × Nat)} {flag : Bool}
      {original o : Ownership} {between : List Ownership} : o.status = .active →
      original.SameOperation o →
      (flag = true → o.expectedStateRevision = original.expectedStateRevision) →
      Scans previous ⟨closed, some (original, between), operations, flag⟩ o
        ⟨closed, some (original, between ++ [o]), operations, flag⟩
  | handoff {closed : List (Span × Bool)} {operations : List (Bytes × Nat)} {flag : Bool}
      {original o : Ownership} {between : List Ownership} {result : Bytes} :
      o.status = .handoff result →
      (flag = true → result = original.expectedStateRevision) →
      Scans previous ⟨closed, some (original, between), operations, flag⟩ o
        ⟨closed, some (original, between ++ [o]), operations, flag⟩
  | complete {closed : List (Span × Bool)} {operations : List (Bytes × Nat)}
      {original o : Ownership} {between : List Ownership} {result : Bytes} :
      o.status = .completed result → operations.lookup o.operationId = none →
      Scans previous ⟨closed, some (original, between), operations, false⟩ o
        ⟨closed ++ [(⟨original, between, o⟩, false)], none,
          operations ++ [(o.operationId, closed.length)], false⟩
  | completeAgain {closed : List (Span × Bool)} {operations : List (Bytes × Nat)}
      {original o : Ownership} {between : List Ownership} {result : Bytes} :
      o.status = .completed result → result = original.expectedStateRevision →
      Scans previous ⟨closed, some (original, between), operations, true⟩ o
        ⟨closed ++ [(⟨original, between, o⟩, true)], none, operations, true⟩

theorem demandSame_value (o p : Ownership) (key key' : String) {a b : Bytes}
    (ho : ByteMap.find o.fields (ascii key) = some (.string a))
    (hp : ByteMap.find p.fields (ascii key') = some (.string b)) :
    demandSame o.value key p.value key' = .ok u ↔ a = b := by
  simp only [demandSame, o.get_value key ho, p.get_value key' hp, bind_eq_ok, Except.ok.injEq,
    exists_eq_left', demand_eq_ok, equalValues_iff, Value.string.injEq]

theorem find_result {o : Ownership} (h : o.status.result = .string result) :
    ByteMap.find o.fields (ascii "result_state_revision") = some (.string result) := by
  rw [← h]
  rfl

section Step

variable {previous : Option Ownership} {o : Ownership} {s : Retirement}
  {closed : List (Span × Bool)} {operations : List (Bytes × Nat)} {flag : Bool}

theorem checkRepeated_value {first : Ownership} :
    checkRepeated (previous.map Ownership.value) first.value o.value o.operation = .ok u ↔
      ∃ p, previous = some p ∧ p.status = .completed o.expectedStateRevision ∧
        first.operation = o.operation ∧
        first.operationContextSha256 = o.operationContextSha256 := by
  cases previous with
  | none =>
    constructor
    · intro h
      cases h
    · rintro ⟨p, hp, -⟩
      cases hp
  | some p =>
    simp only [checkRepeated, Option.map_some, bind_eq_ok, Option.some.injEq, exists_eq_left',
      demandString_value p "status" _ _ rfl, demandString_value first "operation" _ _ rfl,
      demandString_value o "expected_state_revision" _ _ rfl, demand_eq_ok, beq_iff_eq,
      demandSame_value first o "operation_context_sha256" "operation_context_sha256" rfl rfl,
      exists_const]
    constructor
    · rintro ⟨hstatus, hoperation, hcontext, result, hresult, hexpected⟩
      obtain ⟨revision, hrevision⟩ := Status.name_eq_completed.mp hstatus
      rw [getString_eq_ok,
        p.get_value _ (find_result (congrArg Status.result hrevision))] at hresult
      cases hresult
      exact ⟨hrevision.trans (congrArg _ hexpected.symm), hoperation, hcontext⟩
    · rintro ⟨hstatus, hoperation, hcontext⟩
      exact ⟨Status.name_eq_completed.mpr ⟨_, hstatus⟩, hoperation, hcontext, _,
        p.getString_value _ (find_result (congrArg Status.result hstatus)), rfl⟩

/-- The first record of a span. -/
theorem openSpan_value (hactive : o.status = .active) :
    openSpan (Scan.retirement ⟨closed, none, operations, flag⟩ previous) o.value o.operation
        o.operationId = .ok s ↔
      ∃ scan, Scans previous ⟨closed, none, operations, flag⟩ o scan ∧
        s = scan.retirement previous := by
  have hfirst : (Scan.retirement ⟨closed, none, operations, flag⟩ previous).previous.isSome = true ∨
      o.operation = ascii "install_local" ↔
      (previous = none → o.operation = ascii "install_local") := by
    cases previous <;> simp [Scan.retirement]
  simp only [openSpan, bind_eq_ok, demand_eq_ok, Bool.or_eq_true, beq_iff_eq, exists_const, hfirst]
  cases hlookup : operations.lookup o.operationId with
  | none =>
    have hnone : (Scan.retirement ⟨closed, none, operations, flag⟩
        previous).completedOperations.lookup o.operationId = none := hlookup
    simp only [hnone]
    constructor
    · rintro ⟨hinstall, h⟩
      cases h
      exact ⟨_, .start hactive hinstall hlookup, rfl⟩
    · rintro ⟨scan, hscan, rfl⟩
      cases hscan with
      | start _ hinstall _ => exact ⟨hinstall, rfl⟩
      | again _ hsome => cases hlookup.symm.trans hsome
  | some index =>
    have hsome : (Scan.retirement ⟨closed, none, operations, flag⟩
        previous).completedOperations.lookup o.operationId = some index := hlookup
    have hat : (Scan.retirement ⟨closed, none, operations, flag⟩ previous).result[index]? =
        closed[index]?.map fun e => ⟨e.1.original.value, e.1.completion.value, e.2⟩ :=
      List.getElem?_map
    simp only [hsome, hat]
    constructor
    · rintro ⟨hinstall, h⟩
      cases hindex : closed[index]? with
      | none =>
        rw [hindex] at h
        cases h
      | some first =>
        rw [hindex, Option.map_some] at h
        simp only [bind_eq_ok] at h
        obtain ⟨_, hcheck, h⟩ := h
        cases h
        obtain ⟨p, hp, hstatus, hoperation, hcontext⟩ := checkRepeated_value.mp hcheck
        exact ⟨_, .again hactive hlookup hindex hp hstatus hoperation hcontext, rfl⟩
    · rintro ⟨scan, hscan, rfl⟩
      cases hscan with
      | start _ _ hnone => cases hlookup.symm.trans hnone
      | again _ hlook hindex hp hstatus hoperation hcontext =>
        cases hlookup.symm.trans hlook
        refine ⟨fun hnone => absurd (hp.symm.trans hnone) (by simp), ?_⟩
        rw [hindex, Option.map_some]
        simp only [bind_eq_ok]
        exact ⟨(), checkRepeated_value.mpr ⟨_, hp, hstatus, hoperation, hcontext⟩, rfl⟩

/-- A later active record of a span. -/
theorem continueSpan_value {original : Ownership} {between : List Ownership}
    (hactive : o.status = .active) :
    continueSpan (Scan.retirement ⟨closed, some (original, between), operations, flag⟩ previous)
        original.value o.value o.operation o.operationId = .ok s ↔
      ∃ scan, Scans previous ⟨closed, some (original, between), operations, flag⟩ o scan ∧
        s = scan.retirement previous := by
  have hflag : (Scan.retirement ⟨closed, some (original, between), operations, flag⟩
      previous).isRepeated = flag := rfl
  simp only [continueSpan, bind_eq_ok, demandString_value original "operation" _ _ rfl,
    demandString_value original "operation_id" _ _ rfl, demand_eq_ok, beq_iff_eq, hflag,
    demandSame_value original o "operation_context_sha256" "operation_context_sha256" rfl rfl,
    exists_const]
  constructor
  · rintro ⟨hoperation, hid, hcontext, h⟩
    cases flag with
    | true =>
      simp only [if_true, bind_eq_ok, demandSame_value original o "expected_state_revision"
        "expected_state_revision" rfl rfl, exists_const] at h
      obtain ⟨hexpected, h⟩ := h
      cases h
      exact ⟨_, .proceed hactive ⟨hoperation, hid, hcontext⟩ fun _ => hexpected.symm, rfl⟩
    | false =>
      cases h
      exact ⟨_, .proceed hactive ⟨hoperation, hid, hcontext⟩ (fun h => by cases h), rfl⟩
  · rintro ⟨scan, hscan, rfl⟩
    cases hscan with
    | proceed _ hsame hexpected =>
      refine ⟨hsame.operation, hsame.operationId, hsame.context, ?_⟩
      cases flag with
      | true =>
        simp only [if_true, bind_eq_ok, demandSame_value original o "expected_state_revision"
          "expected_state_revision" rfl rfl, exists_const]
        exact ⟨(hexpected rfl).symm, rfl⟩
      | false => rfl
    | handoff hstatus => cases hactive.symm.trans hstatus
    | complete hstatus => cases hactive.symm.trans hstatus
    | completeAgain hstatus => cases hactive.symm.trans hstatus

/-- A record that is not active needs an open span. -/
theorem spanRecord_none (h : o.status ≠ .active) :
    spanRecord (Scan.retirement ⟨closed, none, operations, flag⟩ previous) o.value o.operation
      o.operationId o.status.name ≠ .ok s := by
  have hname : ¬(o.status.name == ascii "active") = true := fun he =>
    h (Status.name_eq_active.mp (beq_iff_eq.mp he))
  have hspan : spanRecord (Scan.retirement ⟨closed, none, operations, flag⟩ previous) o.value
      o.operation o.operationId o.status.name = .error incompleteHistory := by
    unfold spanRecord
    exact if_neg hname
  rw [hspan]
  simp

/-- A finished record in an open span. -/
theorem spanRecord_finished {original : Ownership} {between : List Ownership}
    (h : o.status.result = .string result) :
    spanRecord (Scan.retirement ⟨closed, some (original, between), operations, flag⟩ previous)
        o.value o.operation o.operationId o.status.name = .ok s ↔
      (flag = true → result = original.expectedStateRevision) ∧
        s = Scan.retirement ⟨closed, some (original, between), operations, flag⟩ previous := by
  have hname : ¬(o.status.name == ascii "active") = true := by
    intro he
    rw [Status.name_eq_active.mp (beq_iff_eq.mp he)] at h
    cases h
  have hspan : spanRecord (Scan.retirement ⟨closed, some (original, between), operations, flag⟩
      previous) o.value o.operation o.operationId o.status.name = (do
        if flag then
          demandSame original.value "expected_state_revision" o.value "result_state_revision"
        pure (Scan.retirement ⟨closed, some (original, between), operations, flag⟩ previous)) := by
    unfold spanRecord
    exact if_neg hname
  rw [hspan]
  cases flag with
  | true =>
    simp only [if_true, bind_eq_ok, exists_const, true_imp_iff,
      demandSame_value original o "expected_state_revision" "result_state_revision" rfl
        (find_result h)]
    constructor
    · rintro ⟨hresult, hs⟩
      exact ⟨hresult.symm, (Except.ok.inj hs).symm⟩
    · rintro ⟨hresult, rfl⟩
      exact ⟨hresult.symm, rfl⟩
  | false =>
    constructor
    · intro hs
      exact ⟨fun hf => (by cases hf), (Except.ok.inj hs).symm⟩
    · rintro ⟨-, rfl⟩
      rfl

/-- The end of a span. -/
theorem closeSpan_completed {original : Ownership} {between : List Ownership}
    (h : o.status = .completed result) :
    ((flag = true → result = original.expectedStateRevision) ∧
      closeSpan (Scan.retirement ⟨closed, some (original, between), operations, flag⟩ previous)
        o.value o.operationId o.status.name = .ok s) ↔
      ∃ scan, Scans previous ⟨closed, some (original, between), operations, flag⟩ o scan ∧
        s = scan.retirement previous := by
  have hname : (o.status.name == ascii "completed") = true :=
    beq_iff_eq.mpr (Status.name_eq_completed.mpr ⟨result, h⟩)
  cases flag with
  | true =>
    have hclose : closeSpan (Scan.retirement ⟨closed, some (original, between), operations, true⟩
        previous) o.value o.operationId o.status.name = (do
          demandSame original.value "expected_state_revision" o.value "result_state_revision"
          pure (Scan.retirement ⟨closed ++ [(⟨original, between, o⟩, true)], none, operations, true⟩
            previous)) := by
      unfold closeSpan
      rw [if_pos hname]
      simp [Scan.retirement]
    simp only [hclose, bind_eq_ok, exists_const, true_imp_iff,
      demandSame_value original o "expected_state_revision" "result_state_revision" rfl
        (find_result (congrArg Status.result h))]
    constructor
    · rintro ⟨hkeeps, -, hs⟩
      exact ⟨_, .completeAgain h hkeeps, (Except.ok.inj hs).symm⟩
    · rintro ⟨scan, hscan, rfl⟩
      cases hscan with
      | proceed hactive => cases h.symm.trans hactive
      | handoff hresult => cases h.symm.trans hresult
      | completeAgain hresult hkeeps =>
        cases h.symm.trans hresult
        exact ⟨hkeeps, hkeeps.symm, rfl⟩
  | false =>
    have hclose : closeSpan (Scan.retirement ⟨closed, some (original, between), operations, false⟩
        previous) o.value o.operationId o.status.name = (do
          demand (operations.lookup o.operationId).isNone incompleteHistory
          pure (Scan.retirement ⟨closed ++ [(⟨original, between, o⟩, false)], none,
            operations ++ [(o.operationId, closed.length)], false⟩ previous)) := by
      unfold closeSpan
      rw [if_pos hname]
      simp [Scan.retirement]
    simp only [hclose, bind_eq_ok, exists_const, demand_eq_ok, Option.isNone_iff_eq_none]
    constructor
    · rintro ⟨-, hlookup, hs⟩
      exact ⟨_, .complete h hlookup, (Except.ok.inj hs).symm⟩
    · rintro ⟨scan, hscan, rfl⟩
      cases hscan with
      | proceed hactive => cases h.symm.trans hactive
      | handoff hresult => cases h.symm.trans hresult
      | complete _ hlookup => exact ⟨fun hf => (by cases hf), hlookup, rfl⟩

theorem closeSpan_unfinished {t : Retirement} (h : ∀ result, o.status ≠ .completed result) :
    closeSpan t o.value o.operationId o.status.name = .ok s ↔ t = s := by
  have hname : ¬(o.status.name == ascii "completed") = true := by
    intro he
    obtain ⟨result, hresult⟩ := Status.name_eq_completed.mp (beq_iff_eq.mp he)
    exact h result hresult
  rw [closeSpan, if_neg hname, Except.ok.injEq]

/-- What the loop does with a record, apart from the protocol. -/
theorem span_value :
    (∃ t, spanRecord (scan.retirement previous) o.value o.operation o.operationId o.status.name =
        .ok t ∧ closeSpan t o.value o.operationId o.status.name = .ok s) ↔
      ∃ scan', Scans previous scan o scan' ∧ s = scan'.retirement previous := by
  obtain ⟨closed, pending, operations, flag⟩ := scan
  cases hstatus : o.status with
  | active =>
    rw [← hstatus]
    simp only [closeSpan_unfinished (fun result hr => by cases hstatus.symm.trans hr),
      exists_eq_right]
    have hname : (o.status.name == ascii "active") = true :=
      beq_iff_eq.mpr (Status.name_eq_active.mpr hstatus)
    cases pending with
    | none =>
      rw [← openSpan_value hstatus, spanRecord]
      exact iff_of_eq (congrArg (· = _) (if_pos hname))
    | some pending =>
      rw [← continueSpan_value hstatus, spanRecord]
      exact iff_of_eq (congrArg (· = _) (if_pos hname))
  | handoff result =>
    rw [← hstatus]
    simp only [closeSpan_unfinished (fun result hr => by cases hstatus.symm.trans hr),
      exists_eq_right]
    cases pending with
    | none =>
      have hne : o.status ≠ .active := by simp [hstatus]
      refine ⟨fun h => absurd h (spanRecord_none hne), ?_⟩
      rintro ⟨scan, hscan, -⟩
      cases hscan with
      | start hactive => exact absurd hactive hne
      | again hactive => exact absurd hactive hne
    | some pending =>
      rw [spanRecord_finished (congrArg Status.result hstatus)]
      constructor
      · rintro ⟨hkeeps, rfl⟩
        exact ⟨_, .handoff hstatus hkeeps, rfl⟩
      · rintro ⟨scan, hscan, rfl⟩
        cases hscan with
        | proceed hactive => cases hstatus.symm.trans hactive
        | handoff hresult hkeeps =>
          cases hstatus.symm.trans hresult
          exact ⟨hkeeps, rfl⟩
        | complete hresult => cases hstatus.symm.trans hresult
        | completeAgain hresult => cases hstatus.symm.trans hresult
  | completed result =>
    rw [← hstatus]
    cases pending with
    | none =>
      have hne : o.status ≠ .active := by simp [hstatus]
      constructor
      · rintro ⟨t, ht, -⟩
        exact absurd ht (spanRecord_none hne)
      · rintro ⟨scan, hscan, -⟩
        cases hscan with
        | start hactive => exact absurd hactive hne
        | again hactive => exact absurd hactive hne
    | some pending =>
      rw [← closeSpan_completed hstatus]
      simp only [spanRecord_finished (congrArg Status.result hstatus)]
      constructor
      · rintro ⟨t, ⟨hkeeps, rfl⟩, hclose⟩
        exact ⟨hkeeps, hclose⟩
      · rintro ⟨hkeeps, hclose⟩
        exact ⟨_, ⟨hkeeps, rfl⟩, hclose⟩

end Step

/-! ## Whole histories -/

/-- A record of the installation that is retired. -/
structure Admitted (installId : Bytes) (root : Value) (o : Ownership) : Prop where
  installId : o.installId = installId
  root : o.stateRootIdentity = root
  operation : o.operation ∈ retirementOperations

/-- A record that is not active is in a span, of which the protocol knows the record before it. -/
theorem Scans.opened {previous : Option Ownership} {o : Ownership} (h : Scans previous scan o scan')
    (ht : Transition previous o) :
    (o.status.name == ascii "active" || (scan.retirement previous).previous.isSome &&
      (scan.retirement previous).original.isSome) = true := by
  have hprevious : o.status ≠ .active → (previous.map Ownership.value).isSome = true := by
    intro hne
    cases ht with
    | derive hd => exact absurd hd.active hne
    | finish _ _ hp _ =>
      rw [hp]
      rfl
  by_cases hactive : o.status = .active
  · rw [Status.name_eq_active.mpr hactive]
    rfl
  · rw [Bool.or_eq_true, Bool.and_eq_true]
    refine .inr ⟨hprevious hactive, ?_⟩
    cases h with
    | start ha => exact absurd ha hactive
    | again ha => exact absurd ha hactive
    | proceed => rfl
    | handoff => rfl
    | complete => rfl
    | completeAgain => rfl

theorem retireRecord_eq_ok {installId : Bytes} {root v : Value} {previous : Option Ownership}
    {s : Retirement} (hroot : WellFormed root) (hv : WellFormed v) :
    retireRecord installId root (scan.retirement previous) v = .ok s ↔
      ∃ o scan', v = o.value ∧ Admitted installId root o ∧ Transition previous o ∧
        Scans previous scan o scan' ∧ s = scan'.retirement (some o) := by
  constructor
  · intro h
    simp only [retireRecord, bind_eq_ok, demand_eq_ok, exists_const] at h
    obtain ⟨_, hrec, _, hid, root', hget, hroot', operation, hoperation, id, hidentifier, hmember,
      status, hstatus, -, expected, hexpected, t, hspan, hequal, t', hclose, hs⟩ := h
    obtain ⟨o, rfl⟩ := exists_ownership hv hrec
    rw [demandString_value o "install_id" _ _ rfl, demand_eq_ok, beq_iff_eq] at hid
    rw [o.get_value "state_root_identity" rfl] at hget
    rw [o.getString_value "operation" rfl] at hoperation
    rw [o.getString_value "operation_id" rfl] at hidentifier
    rw [o.getString_value "status" rfl] at hstatus
    cases hget
    cases hoperation
    cases hidentifier
    cases hstatus
    rw [equalValues_iff] at hroot' hequal
    subst hequal
    obtain ⟨scan', hscan, rfl⟩ := span_value.mp ⟨t, hspan, hclose⟩
    cases hs
    refine ⟨o, scan', rfl, ⟨hid, hroot', List.contains_iff_mem.mp hmember⟩, ?_, hscan, rfl⟩
    rw [← hid, ← hroot'] at hexpected
    exact expectedRecord_value.mp hexpected
  · rintro ⟨o, scan', rfl, ⟨rfl, rfl, hmember⟩, ht, hscan, rfl⟩
    obtain ⟨t, hspan, hclose⟩ := span_value.mpr ⟨scan', hscan, rfl⟩
    simp only [retireRecord, bind_eq_ok, demand_eq_ok, exists_const]
    refine ⟨(), o.requireInstallLeaseRecord_value, (), ?_, _, o.get_value _ rfl,
      equalValues_iff.mpr rfl, _, o.getString_value _ rfl, _, o.getString_value _ rfl,
      List.contains_iff_mem.mpr hmember, _, o.getString_value _ rfl, hscan.opened ht, _,
      expectedRecord_value.mpr ht, t, hspan, equalValues_iff.mpr rfl, _, hclose, rfl⟩
    rw [demandString_value o "install_id" _ _ rfl, demand_eq_ok, beq_iff_eq]

/-- The scan over a whole history. -/
inductive ScansAll : Option Ownership → Scan → List Ownership → Scan → Prop
  | nil (previous : Option Ownership) (scan : Scan) : ScansAll previous scan [] scan
  | cons {previous : Option Ownership} {scan scan' scan'' : Scan} {o : Ownership}
      {rest : List Ownership} : Scans previous scan o scan' →
      ScansAll (some o) scan' rest scan'' → ScansAll previous scan (o :: rest) scan''

theorem retireRecords_eq_ok {installId : Bytes} {root : Value} {s : Retirement}
    (hroot : WellFormed root) {history : List Value} {previous : Option Ownership}
    (hwell : ∀ v ∈ history, WellFormed v) :
    retireRecords installId root history (scan.retirement previous) = .ok s ↔
      ∃ os scan', history = os.map Ownership.value ∧ (∀ o ∈ os, Admitted installId root o) ∧
        Recorded previous os ∧ ScansAll previous scan os scan' ∧
        s = scan'.retirement (os.getLast?.or previous) := by
  induction history generalizing scan previous with
  | nil =>
    rw [retireRecords]
    constructor
    · intro h
      exact ⟨[], scan, rfl, List.forall_mem_nil _, .nil _, .nil _ _, (Except.ok.inj h).symm⟩
    · rintro ⟨os, scan', hos, -, -, hscans, rfl⟩
      cases List.map_eq_nil_iff.mp hos.symm
      cases hscans
      rfl
  | cons v rest ih =>
    have hv := hwell v List.mem_cons_self
    have hrest := fun w hw => hwell w (List.mem_cons_of_mem v hw)
    simp only [retireRecords, bind_eq_ok, retireRecord_eq_ok hroot hv]
    constructor
    · rintro ⟨_, ⟨o, scan', rfl, hadmitted, ht, hscan, rfl⟩, hrecords⟩
      obtain ⟨os, scan'', rfl, hall, hrecorded, hscans, rfl⟩ :=
        (ih hrest).mp hrecords
      refine ⟨o :: os, scan'', rfl, List.forall_mem_cons.mpr ⟨hadmitted, hall⟩,
        .cons ht hrecorded, .cons hscan hscans, ?_⟩
      rw [List.getLast?_cons]
      cases os.getLast? <;> rfl
    · rintro ⟨os, scan'', hos, hall, hrecorded, hscans, rfl⟩
      obtain ⟨o, tail, rfl, rfl, rfl⟩ := List.map_eq_cons_iff.mp hos.symm
      obtain ⟨hadmitted, hall⟩ := List.forall_mem_cons.mp hall
      cases hrecorded with
      | cons ht hrecorded =>
        cases hscans with
        | cons hscan hscans =>
          refine ⟨_, ⟨o, _, rfl, hadmitted, ht, hscan, rfl⟩, ?_⟩
          refine (ih hrest).mpr ⟨tail, scan'', rfl, hall, hrecorded, hscans, ?_⟩
          rw [List.getLast?_cons]
          cases tail.getLast? <;> rfl

/-! ## What the scan has read -/

theorem Span.getLast_records (span : Span) : span.records.getLast? = some span.completion := by
  rw [records, ← List.cons_append, List.getLast?_concat]

theorem getLast_flatMap_records : ∀ spans : List Span,
    (spans.flatMap Span.records).getLast? = spans.getLast?.map Span.completion := by
  intro spans
  rcases spans.eq_nil_or_concat with rfl | ⟨front, span, rfl⟩
  · rfl
  · rw [List.concat_eq_append, List.flatMap_append, List.flatMap_singleton, List.getLast?_append,
      Span.getLast_records, List.getLast?_concat]
    rfl

theorem completions_concat : ∀ (before spans : List Span) (span : Span),
    completions before (spans ++ [span]) = completions before spans ++
      [⟨span.original.value, span.completion.value, span.later (before ++ spans)⟩]
  | before, [], span => by
    rw [List.append_nil]
    rfl
  | before, head :: spans, span => by
    have ih := completions_concat (before ++ [head]) spans span
    rw [List.append_assoc, List.singleton_append] at ih
    rw [List.cons_append, completions, completions, ih, List.cons_append]

theorem ordered_concat {spans : List Span} (h : Ordered spans)
    (hspan : span.later spans = true → Repeats spans span) : Ordered (spans ++ [span]) := by
  intro before middle after heq hlater
  rcases after.eq_nil_or_concat with rfl | ⟨rest, last, rfl⟩
  · obtain ⟨rfl, hmiddle⟩ := List.append_inj' heq rfl
    cases hmiddle
    exact hspan hlater
  · rw [List.concat_eq_append, ← List.cons_append, ← List.append_assoc] at heq
    obtain ⟨rfl, -⟩ := List.append_inj' heq rfl
    exact h before middle rest rfl hlater

theorem Ownership.SameOperation.symm {o : Ownership} (h : o.SameOperation p) : p.SameOperation o :=
  ⟨h.operation.symm, h.operationId.symm, h.context.symm⟩

theorem Ownership.SameOperation.trans {o q : Ownership} (h : o.SameOperation p)
    (h' : p.SameOperation q) : o.SameOperation q :=
  ⟨h.operation.trans h'.operation, h.operationId.trans h'.operationId, h.context.trans h'.context⟩

theorem Span.Closed.operationId (h : span.Closed) : span.original.operationId = span.operationId :=
  (h.same span.completion (List.mem_of_mem_getLast? span.getLast_records)).operationId

theorem Span.later_eq_true {before : List Span} :
    span.later before = true ↔ ∃ earlier ∈ before, earlier.operationId = span.operationId := by
  simp only [later, List.any_eq_true, beq_iff_eq]

/-- In ordered spans an identifier stands for one operation. -/
theorem Ordered.sameOperation {spans : List Span} (h : Ordered spans) {e e' : Span} (he : e ∈ spans)
    (he' : e' ∈ spans) (hid : e.operationId = e'.operationId) :
    e.original.SameOperation e'.original := by
  obtain ⟨before, after, rfl⟩ := List.append_of_mem he'
  rcases List.mem_append.mp he with hbefore | hmem
  · exact (h before e' after rfl (Span.later_eq_true.mpr ⟨e, hbefore, hid⟩)).operation e hbefore hid
  · rcases List.mem_cons.mp hmem with rfl | hafter
    · exact ⟨rfl, rfl, rfl⟩
    · obtain ⟨middle, rest, rfl⟩ := List.append_of_mem hafter
      have hmem' : e' ∈ before ++ e' :: middle := List.mem_append_right _ List.mem_cons_self
      have hrepeats := h (before ++ e' :: middle) e rest (by simp)
        (Span.later_eq_true.mpr ⟨e', hmem', hid.symm⟩)
      exact (hrepeats.operation e' hmem' hid.symm).symm

/-- The records of the open span. -/
def Scan.opened (scan : Scan) : List Ownership :=
  match scan.pending with
  | none => []
  | some pending => pending.1 :: pending.2

/-- The spans that the scan has closed. -/
def Scan.spans (scan : Scan) : List Span :=
  scan.closed.map Prod.fst

/-- What holds of an open span after the spans before it. -/
structure Pending (before : List Span) (flag : Bool) (original : Ownership)
    (between : List Ownership) : Prop where
  active : original.status = .active
  unfinished : ∀ o ∈ between, ∀ result, o.status ≠ .completed result
  same : ∀ o ∈ original :: between, original.SameOperation o
  flagged : flag = before.any fun earlier => earlier.operationId == original.operationId
  operation : ∀ earlier ∈ before, earlier.operationId = original.operationId →
    earlier.original.SameOperation original
  revision : flag = true → ∀ preceding result, before.getLast? = some preceding →
    preceding.completion.status = .completed result → result = original.expectedStateRevision
  keeps : flag = true → ∀ o ∈ original :: between, o.Keeps original.expectedStateRevision

/-- What the scan knows after it has read some records. -/
structure Sound (scan : Scan) (os : List Ownership) : Prop where
  records : os = scan.spans.flatMap Span.records ++ scan.opened
  first : ∀ o, os.head? = some o → o.operation = ascii "install_local"
  closed : ∀ span ∈ scan.spans, span.Closed
  ordered : Ordered scan.spans
  result : (scan.retirement none).result = completions [] scan.spans
  absent : ∀ id, scan.operations.lookup id = none → ∀ span ∈ scan.spans, span.operationId ≠ id
  found : ∀ id index, scan.operations.lookup id = some index →
    ∃ e, scan.closed[index]? = some e ∧ e.1.operationId = id
  pending : ∀ original between, scan.pending = some (original, between) →
    Pending scan.spans scan.isRepeated original between

theorem sound_start : Sound {} [] where
  records := rfl
  first _ h := by cases h
  closed := List.forall_mem_nil _
  ordered before span after h := by simp [Scan.spans] at h
  result := rfl
  absent _ _ := List.forall_mem_nil _
  found _ _ h := by cases h
  pending _ _ h := by cases h

/-- The last record of an open span is the last one that was read. -/
theorem Sound.mem_of_getLast {os : List Ownership} (h : Sound scan os) {original : Ownership}
    {between : List Ownership} (hpending : scan.pending = some (original, between))
    (hp : os.getLast? = some p) : p ∈ original :: between := by
  have hopened : scan.opened = original :: between := by
    rw [Scan.opened, hpending]
  rw [h.records, hopened, List.getLast?_append] at hp
  cases hlast : (original :: between).getLast? with
  | none => simp at hlast
  | some q =>
    rw [hlast, Option.some_or] at hp
    cases hp
    exact List.mem_of_mem_getLast? hlast

/-- Finishing a record changes its status only. -/
theorem Transition.of_finished {previous : Option Ownership} {o : Ownership}
    (h : Transition previous o) (hne : o.status ≠ .active) :
    ∃ p, previous = some p ∧ p.SameOperation o ∧
      o.expectedStateRevision = p.expectedStateRevision := by
  cases h with
  | derive hd => exact absurd hd.active hne
  | finish _ _ hp _ => exact ⟨_, hp, ⟨rfl, rfl, rfl⟩, rfl⟩

section Invariant

variable {closed : List (Span × Bool)} {operations : List (Bytes × Nat)} {flag : Bool}
  {original o : Ownership} {between os : List Ownership}

theorem Sound.start {flag' : Bool} (h : Sound ⟨closed, none, operations, flag⟩ os)
    (hfirst : os.getLast? = none → o.operation = ascii "install_local")
    (hpending : Pending (closed.map Prod.fst) flag' o []) :
    Sound ⟨closed, some (o, []), operations, flag'⟩ (os ++ [o]) where
  records := congrArg (· ++ [o]) (h.records.trans (List.append_nil _))
  first q hq := by
    rcases os.eq_nil_or_concat with rfl | ⟨front, last, rfl⟩
    · cases hq
      exact hfirst rfl
    · rw [List.head?_append_of_ne_nil _ (by simp)] at hq
      exact h.first q hq
  closed := h.closed
  ordered := h.ordered
  result := h.result
  absent := h.absent
  found := h.found
  pending _ _ heq := by
    cases heq
    exact hpending

theorem Sound.proceed (h : Sound ⟨closed, some (original, between), operations, flag⟩ os)
    (hstatus : ∀ result, o.status ≠ .completed result) (hsame : original.SameOperation o)
    (hkeeps : flag = true → o.Keeps original.expectedStateRevision) :
    Sound ⟨closed, some (original, between ++ [o]), operations, flag⟩ (os ++ [o]) where
  records := by
    rw [h.records, List.append_assoc]
    rfl
  first q hq := by
    have hne : os ≠ [] := by
      rw [h.records]
      exact List.append_ne_nil_of_right_ne_nil _ (List.cons_ne_nil _ _)
    rw [List.head?_append_of_ne_nil _ hne] at hq
    exact h.first q hq
  closed := h.closed
  ordered := h.ordered
  result := h.result
  absent := h.absent
  found := h.found
  pending _ _ heq := by
    cases heq
    have hp := h.pending original between rfl
    refine ⟨hp.active, ?_, ?_, hp.flagged, hp.operation, hp.revision, ?_⟩
    · exact List.forall_mem_append.mpr ⟨hp.unfinished, List.forall_mem_singleton.mpr hstatus⟩
    · rw [← List.cons_append]
      exact List.forall_mem_append.mpr ⟨hp.same, List.forall_mem_singleton.mpr hsame⟩
    · intro hflag
      rw [← List.cons_append]
      exact List.forall_mem_append.mpr
        ⟨hp.keeps hflag, List.forall_mem_singleton.mpr (hkeeps hflag)⟩

theorem Sound.close {operations' : List (Bytes × Nat)} {revision : Bytes}
    (h : Sound ⟨closed, some (original, between), operations, flag⟩ os)
    (hstatus : o.status = .completed revision) (hsame : original.SameOperation o)
    (hkeeps : flag = true → o.Keeps original.expectedStateRevision)
    (habsent : ∀ id, operations'.lookup id = none →
      operations.lookup id = none ∧ o.operationId ≠ id)
    (hfound : ∀ id index, operations'.lookup id = some index →
      operations.lookup id = some index ∨ index = closed.length ∧ o.operationId = id) :
    Sound ⟨closed ++ [(⟨original, between, o⟩, flag)], none, operations', flag⟩ (os ++ [o]) := by
  have hp : Pending (closed.map Prod.fst) flag original between := h.pending original between rfl
  have hspans : Scan.spans ⟨closed ++ [(⟨original, between, o⟩, flag)], none, operations', flag⟩ =
      closed.map Prod.fst ++ [⟨original, between, o⟩] := by
    rw [Scan.spans, List.map_append]
    rfl
  have hlater : Span.later (closed.map Prod.fst) ⟨original, between, o⟩ = flag := by
    rw [hp.flagged, hsame.operationId]
    rfl
  have hclosed : Span.Closed ⟨original, between, o⟩ := by
    refine ⟨hp.active, hp.unfinished, ⟨revision, hstatus⟩, ?_⟩
    rw [Span.records, ← List.cons_append]
    exact List.forall_mem_append.mpr ⟨hp.same, List.forall_mem_singleton.mpr hsame⟩
  refine ⟨?_, ?_, ?_, ?_, ?_, ?_, ?_, fun _ _ heq => by cases heq⟩
  · rw [h.records, hspans, List.flatMap_append, List.flatMap_singleton, List.append_assoc,
      List.append_assoc]
    simp [Scan.opened, Span.records, Scan.spans]
  · intro q hq
    have hne : os ≠ [] := by
      rw [h.records]
      exact List.append_ne_nil_of_right_ne_nil _ (List.cons_ne_nil _ _)
    rw [List.head?_append_of_ne_nil _ hne] at hq
    exact h.first q hq
  · rw [hspans]
    exact List.forall_mem_append.mpr ⟨h.closed, List.forall_mem_singleton.mpr hclosed⟩
  · rw [hspans]
    refine ordered_concat h.ordered fun hflag => ?_
    rw [hlater] at hflag
    refine ⟨fun e he hid => hp.operation e he (hid.trans hsame.operationId.symm), ?_⟩
    intro preceding result hlast hresult
    rw [hp.revision hflag preceding result hlast hresult, Span.records, ← List.cons_append]
    exact List.forall_mem_append.mpr
      ⟨hp.keeps hflag, List.forall_mem_singleton.mpr (hkeeps hflag)⟩
  · have hresult := h.result
    rw [hspans, completions_concat, List.nil_append, hlater]
    simp only [Scan.retirement, List.map_append, List.map_cons, List.map_nil] at hresult ⊢
    rw [hresult]
    rfl
  · intro id hid
    obtain ⟨hold, hne⟩ := habsent id hid
    rw [hspans]
    exact List.forall_mem_append.mpr ⟨h.absent id hold, List.forall_mem_singleton.mpr hne⟩
  · intro id index hid
    show ∃ e, (closed ++ [(⟨original, between, o⟩, flag)])[index]? = some e ∧ _
    rcases hfound id index hid with hold | ⟨rfl, hnew⟩
    · obtain ⟨e, he, heid⟩ := h.found id index hold
      have hlt : index < closed.length := (List.getElem?_eq_some_iff.mp he).1
      rw [List.getElem?_append_left hlt]
      exact ⟨e, he, heid⟩
    · exact ⟨_, List.getElem?_concat_length, hnew⟩

end Invariant

/-- The scan stays sound when it reads the next record. -/
theorem Sound.step {scan scan' : Scan} {os : List Ownership} {o : Ownership} (h : Sound scan os)
    (ht : Transition os.getLast? o) (hscan : Scans os.getLast? scan o scan') :
    Sound scan' (os ++ [o]) := by
  cases hscan with
  | @start closed operations flag _ hactive hinstall hlookup =>
    refine h.start hinstall ⟨hactive, List.forall_mem_nil _, ?_, ?_, ?_, ?_, ?_⟩
    · exact List.forall_mem_singleton.mpr ⟨rfl, rfl, rfl⟩
    · symm
      rw [List.any_eq_false]
      exact fun e he heq => h.absent _ hlookup e he (beq_iff_eq.mp heq)
    · exact fun e he heq => absurd heq (h.absent _ hlookup e he)
    · exact fun hf => by cases hf
    · exact fun hf => by cases hf
  | @again closed operations flag _ p index first hactive hlookup hindex hp hcompleted hoperation
      hcontext =>
    obtain ⟨e, he, hid⟩ := h.found _ _ hlookup
    obtain rfl : e = first := Option.some.inj (he.symm.trans hindex)
    have hmem : e.1 ∈ closed.map Prod.fst := List.mem_map_of_mem (List.mem_of_getElem? hindex)
    have hsame : e.1.original.SameOperation o :=
      ⟨hoperation, (h.closed _ hmem).operationId.trans hid, hcontext⟩
    refine h.start (fun hnone => absurd (hp.symm.trans hnone) (by simp))
      ⟨hactive, List.forall_mem_nil _, ?_, ?_, ?_, ?_, ?_⟩
    · exact List.forall_mem_singleton.mpr ⟨rfl, rfl, rfl⟩
    · symm
      rw [List.any_eq_true]
      exact ⟨e.1, hmem, beq_iff_eq.mpr hid⟩
    · intro e' he' hid'
      exact (h.ordered.sameOperation he' hmem (hid'.trans hid.symm)).trans hsame
    · intro _ preceding result hlast hresult
      have hos : os.getLast? = some preceding.completion := by
        rw [h.records, Scan.opened, List.append_nil, getLast_flatMap_records]
        exact congrArg (Option.map Span.completion) hlast
      cases hos.symm.trans hp
      exact Status.completed.inj (hresult.symm.trans hcompleted)
    · intro _
      refine List.forall_mem_singleton.mpr ⟨rfl, fun result hresult => ?_⟩
      rw [hactive] at hresult
      cases hresult
  | @proceed closed operations flag original _ between hactive hsame hexpected =>
    refine h.proceed (fun result hr => by cases hactive.symm.trans hr) hsame fun hflag => ?_
    refine ⟨hexpected hflag, fun result hresult => ?_⟩
    rw [hactive] at hresult
    cases hresult
  | @handoff closed operations flag original _ between result hstatus hresult =>
    obtain ⟨p, hp, hsame, hexpected⟩ := ht.of_finished (by simp [hstatus])
    have hmem := h.mem_of_getLast rfl hp
    have hpending := h.pending original between rfl
    refine h.proceed (fun r hr => by cases hstatus.symm.trans hr)
      ((hpending.same p hmem).trans hsame) fun hflag => ?_
    refine ⟨hexpected.trans (hpending.keeps hflag p hmem).1, fun r hr => ?_⟩
    rw [hstatus] at hr
    cases hr
    exact hresult hflag
  | @complete closed operations original _ between result hstatus hlookup =>
    obtain ⟨p, hp, hsame, -⟩ := ht.of_finished (by simp [hstatus])
    have hpending := h.pending original between rfl
    refine h.close hstatus ((hpending.same p (h.mem_of_getLast rfl hp)).trans hsame)
      (fun hf => by cases hf) (fun id hid => ?_) fun id index hid => ?_
    · rw [List.lookup_append, Option.or_eq_none_iff] at hid
      refine ⟨hid.1, fun heq => ?_⟩
      subst heq
      simp at hid
    · rw [List.lookup_append] at hid
      cases hold : operations.lookup id with
      | some found =>
        rw [hold] at hid
        exact .inl hid
      | none =>
        rw [hold, Option.none_or] at hid
        by_cases heq : id = o.operationId
        · subst heq
          simp at hid
          exact .inr ⟨hid.symm, rfl⟩
        · rw [List.lookup_cons, beq_eq_false_iff_ne.mpr heq] at hid
          cases hid
  | @completeAgain closed operations original _ between result hstatus hresult =>
    obtain ⟨p, hp, hsame, hexpected⟩ := ht.of_finished (by simp [hstatus])
    have hmem := h.mem_of_getLast rfl hp
    have hpending := h.pending original between rfl
    have hid : original.operationId = o.operationId :=
      ((hpending.same p hmem).trans hsame).operationId
    refine h.close hstatus ((hpending.same p hmem).trans hsame) (fun hflag => ?_)
      (fun id hnone => ⟨hnone, fun heq => ?_⟩) fun id index hid => .inl hid
    · refine ⟨hexpected.trans (hpending.keeps hflag p hmem).1, fun r hr => ?_⟩
      rw [hstatus] at hr
      cases hr
      exact hresult
    · obtain ⟨e, he, heid⟩ := List.any_eq_true.mp hpending.flagged.symm
      exact h.absent id hnone e he ((beq_iff_eq.mp heid).trans (hid.trans heq))

/-- The scan stays sound over a whole history. -/
theorem Sound.run {previous : Option Ownership} (hscans : ScansAll previous scan rest scan') :
    ∀ {os : List Ownership}, Sound scan os →
    previous = os.getLast? → Recorded previous rest → Sound scan' (os ++ rest) := by
  induction hscans with
  | nil =>
    intro os h _ _
    rw [List.append_nil]
    exact h
  | @cons previous scan scan₁ scan₂ o rest hscan _ ih =>
    rintro os h rfl hrecorded
    cases hrecorded with
    | cons ht hrecorded =>
      have hnext := ih (h.step ht hscan) List.getLast?_concat.symm hrecorded
      rwa [List.append_assoc] at hnext

/-! ## The scan of ordered spans -/

theorem ScansAll.append {previous : Option Ownership} {scan'' : Scan} {os : List Ownership}
    (h : ScansAll previous scan os scan')
    (hrest : ScansAll (os.getLast?.or previous) scan' rest scan'') :
    ScansAll previous scan (os ++ rest) scan'' := by
  induction h with
  | nil => exact hrest
  | @cons _ _ _ _ o os hscan _ ih =>
    refine .cons hscan (ih ?_)
    rw [List.getLast?_cons] at hrest
    cases hlast : os.getLast? with
    | none => simpa [hlast] using hrest
    | some q => simpa [hlast] using hrest

/-- The records of an open span up to its completion. -/
theorem scansAll_between {closed : List (Span × Bool)} {operations : List (Bytes × Nat)}
    {flag : Bool} {original : Ownership} : ∀ {between past : List Ownership}
    {previous : Option Ownership}, (∀ o ∈ between, ∀ result, o.status ≠ .completed result) →
    (∀ o ∈ between, original.SameOperation o) →
    (flag = true → ∀ o ∈ between, o.Keeps original.expectedStateRevision) →
    ScansAll previous ⟨closed, some (original, past), operations, flag⟩ between
      ⟨closed, some (original, past ++ between), operations, flag⟩
  | [], past, previous, _, _, _ => by
    rw [List.append_nil]
    exact .nil _ _
  | o :: rest, past, previous, hstatus, hsame, hkeeps => by
    have hnext := fun q hq => hstatus q (List.mem_cons_of_mem o hq)
    have hsame' := fun q hq => hsame q (List.mem_cons_of_mem o hq)
    have hkeeps' := fun hf q hq => hkeeps hf q (List.mem_cons_of_mem o hq)
    have ih : ScansAll (some o) ⟨closed, some (original, past ++ [o]), operations, flag⟩ rest
        ⟨closed, some (original, (past ++ [o]) ++ rest), operations, flag⟩ :=
      scansAll_between hnext hsame' hkeeps'
    rw [List.append_assoc] at ih
    refine .cons ?_ ih
    cases hs : o.status with
    | active =>
      exact .proceed hs (hsame o List.mem_cons_self) fun hf => (hkeeps hf o List.mem_cons_self).1
    | handoff result =>
      refine .handoff hs fun hf => (hkeeps hf o List.mem_cons_self).2 result ?_
      rw [hs]
      rfl
    | completed result => exact absurd hs (hstatus o List.mem_cons_self result)

/-- The scan gets through a span that is in order. -/
theorem Sound.scans_span {closed : List (Span × Bool)} {operations : List (Bytes × Nat)}
    {flag : Bool} {os : List Ownership} (h : Sound ⟨closed, none, operations, flag⟩ os)
    (hclosed : span.Closed)
    (hrepeats : span.later (closed.map Prod.fst) = true → Repeats (closed.map Prod.fst) span)
    (hfirst : os.getLast? = none → span.original.operation = ascii "install_local") :
    ∃ operations' flag', ScansAll os.getLast? ⟨closed, none, operations, flag⟩ span.records
      ⟨closed ++ [(span, flag')], none, operations', flag'⟩ := by
  obtain ⟨revision, hcompleted⟩ := hclosed.completed
  have hid := hclosed.operationId
  have hbetween : ∀ o ∈ span.between, o ∈ span.records := fun o ho =>
    List.mem_cons_of_mem _ (List.mem_append_left _ ho)
  have hlast : span.completion ∈ span.records := List.mem_of_mem_getLast? span.getLast_records
  cases hlookup : operations.lookup span.original.operationId with
  | none =>
    refine ⟨operations ++ [(span.completion.operationId, closed.length)], false,
      .cons (.start hclosed.active hfirst hlookup)
      ((scansAll_between hclosed.unfinished (fun o ho => hclosed.same o (hbetween o ho))
        (fun hf => by cases hf)).append (.cons ?_ (.nil _ _)))⟩
    exact .complete hcompleted ((congrArg (operations.lookup ·) hid).symm.trans hlookup)
  | some index =>
    obtain ⟨e, he, heid⟩ := h.found _ _ hlookup
    have hmem : e.1 ∈ closed.map Prod.fst := List.mem_map_of_mem (List.mem_of_getElem? he)
    have hrep := hrepeats (Span.later_eq_true.mpr ⟨e.1, hmem, heid.trans hid⟩)
    have hsame := hrep.operation e.1 hmem (heid.trans hid)
    -- the span before it says at which revision this one has to stay
    obtain ⟨preceding, hpreceding⟩ : ∃ preceding, (closed.map Prod.fst).getLast? = some preceding :=
      ⟨_, List.getLast?_eq_some_getLast (List.ne_nil_of_mem hmem)⟩
    obtain ⟨result, hresult⟩ := (h.closed preceding (List.mem_of_mem_getLast? hpreceding)).completed
    have hkeeps := hrep.revision preceding result hpreceding hresult
    have hexpected : span.original.expectedStateRevision = result :=
      (hkeeps span.original List.mem_cons_self).1
    have hos : os.getLast? = some preceding.completion := by
      rw [h.records, Scan.opened, List.append_nil, getLast_flatMap_records]
      exact congrArg (Option.map Span.completion) hpreceding
    refine ⟨operations, true, .cons (.again hclosed.active hlookup he hos
      (hresult.trans (congrArg _ hexpected.symm)) hsame.operation hsame.context)
      ((scansAll_between hclosed.unfinished (fun o ho => hclosed.same o (hbetween o ho))
        (fun _ o ho => hexpected ▸ hkeeps o (hbetween o ho))).append (.cons ?_ (.nil _ _)))⟩
    refine .completeAgain hcompleted ?_
    rw [hexpected]
    refine (hkeeps span.completion hlast).2 revision ?_
    rw [hcompleted]
    rfl

/-- The histories that are decoded: recorded spans that are in order, up to the current revision. -/
structure RetiredHistory (installId : Bytes) (root : Value) (currentRevision : Bytes)
    (spans : List Span) : Prop where
  admitted : ∀ o ∈ spans.flatMap Span.records, Admitted installId root o
  recorded : Recorded none (spans.flatMap Span.records)
  first : ∀ span, spans.head? = some span → span.original.operation = ascii "install_local"
  closed : ∀ span ∈ spans, span.Closed
  ordered : Ordered spans
  current : ∃ last, spans.getLast? = some last ∧
    last.completion.status = .completed currentRevision

theorem recorded_append {previous : Option Ownership} {os : List Ownership}
    (h : Recorded previous (os ++ rest)) :
    Recorded previous os ∧ Recorded (os.getLast?.or previous) rest := by
  induction os generalizing previous with
  | nil => exact ⟨.nil _, h⟩
  | cons o os ih =>
    cases h with
    | cons ht hrest =>
      obtain ⟨hos, hrest⟩ := ih hrest
      refine ⟨.cons ht hos, ?_⟩
      rw [List.getLast?_cons]
      cases hlast : os.getLast? with
      | none => simpa [hlast] using hrest
      | some q => simpa [hlast] using hrest

/-- The scan gets through ordered spans, from wherever it stands between two of them. -/
theorem Sound.scans_spans {rest : List Span} : ∀ {closed : List (Span × Bool)}
    {operations : List (Bytes × Nat)} {flag : Bool} {os : List Ownership},
    Sound ⟨closed, none, operations, flag⟩ os → Recorded os.getLast? (rest.flatMap Span.records) →
    (os.getLast? = none → ∀ span, rest.head? = some span →
      span.original.operation = ascii "install_local") →
    (∀ span ∈ rest, span.Closed) → Ordered (closed.map Prod.fst ++ rest) →
    ∃ closed' operations' flag', ScansAll os.getLast? ⟨closed, none, operations, flag⟩
      (rest.flatMap Span.records) ⟨closed', none, operations', flag'⟩ ∧
        closed'.map Prod.fst = closed.map Prod.fst ++ rest := by
  induction rest with
  | nil =>
    intro closed operations flag os h _ _ _ _
    exact ⟨closed, operations, flag, .nil _ _, (List.append_nil _).symm⟩
  | cons span rest ih =>
    intro closed operations flag os h hrecorded hfirst hclosed hordered
    rw [List.flatMap_cons] at hrecorded
    obtain ⟨hspan, hrest⟩ := recorded_append hrecorded
    obtain ⟨operations', flag', hscans⟩ := h.scans_span (hclosed span List.mem_cons_self)
      (hordered (closed.map Prod.fst) span rest rfl) fun hnone => hfirst hnone span rfl
    have hlast : (os ++ span.records).getLast? = some span.completion := by
      rw [List.getLast?_append, span.getLast_records]
      rfl
    have hnext := Sound.run hscans h rfl hspan
    rw [span.getLast_records, Option.some_or, ← hlast] at hrest
    obtain ⟨closed', operations'', flag'', hscans', heq⟩ := ih hnext hrest
      (fun hnone => absurd (hlast.symm.trans hnone) (by simp))
      (fun s hs => hclosed s (List.mem_cons_of_mem span hs))
      (by rwa [List.map_append, List.append_assoc])
    refine ⟨closed', operations'', flag'', ?_, ?_⟩
    · rw [List.flatMap_cons]
      refine hscans.append ?_
      rw [span.getLast_records, Option.some_or, ← hlast]
      exact hscans'
    · rw [heq, List.map_append, List.append_assoc]
      rfl

theorem checkRetired_eq_ok {previous : Option Ownership} {currentRevision : Bytes} :
    checkRetired (scan.retirement previous) currentRevision = .ok u ↔
      scan.pending = none ∧ ∃ p, previous = some p ∧ p.status = .completed currentRevision := by
  cases previous with
  | none =>
    constructor
    · intro h
      cases h
    · rintro ⟨-, p, hp, -⟩
      cases hp
  | some p =>
    have hretired : checkRetired (scan.retirement (some p)) currentRevision = (do
        demand (scan.pending.map fun pending => pending.1.value).isNone incompleteHistory
        demandString p.value "status" (· == ascii "completed") incompleteHistory
        demandString p.value "result_state_revision" (· == currentRevision) incompleteHistory) :=
      rfl
    simp only [hretired, bind_eq_ok, demand_eq_ok, Option.isNone_map, Option.isNone_iff_eq_none,
      demandString_value p "status" _ _ rfl, beq_iff_eq, exists_const, Option.some.injEq,
      exists_eq_left']
    refine and_congr_right fun _ => ?_
    constructor
    · rintro ⟨hstatus, hresult⟩
      obtain ⟨result, hcompleted⟩ := Status.name_eq_completed.mp hstatus
      rw [demandString_value p _ _ _ (find_result (congrArg Status.result hcompleted)),
        demand_eq_ok, beq_iff_eq] at hresult
      rw [hcompleted, hresult]
    · intro hcompleted
      refine ⟨Status.name_eq_completed.mpr ⟨_, hcompleted⟩, ?_⟩
      rw [demandString_value p _ _ _ (find_result (congrArg Status.result hcompleted)),
        demand_eq_ok, beq_iff_eq]

theorem head_flatMap_records {spans : List Span} (h : spans.head? = some span) :
    (spans.flatMap Span.records).head? = some span.original := by
  cases spans with
  | nil => cases h
  | cons first rest =>
    cases h
    rfl

/-- A completed record names a revision. -/
theorem hex_of_completed {o : Ownership} {revision : Bytes} (h : o.status = .completed revision) :
    hex revision 64 = true := by
  have hresulted := o.resulted
  rw [h] at hresulted
  exact demand_eq_ok.mp hresulted

/-- A history is decoded exactly if it falls into recorded spans that are in order, and what is
returned are the ends of the spans. -/
theorem owned_retirement_history_decoded (history : List Document) (installId : Bytes)
    (root : Document) (currentRevision : Bytes) (result : List OwnedRetirementLeaseCompletion) :
    decodeOwnedRetirementLeaseHistory (history.map Subtype.val) installId root.1 currentRevision =
        .ok result ↔
      history.length ≤ 4096 ∧ ∃ spans : List Span,
        history.map Subtype.val = (spans.flatMap Span.records).map Ownership.value ∧
        RetiredHistory installId root.1 currentRevision spans ∧ result = completions [] spans := by
  have hwell : ∀ v ∈ history.map Subtype.val, WellFormed v :=
    List.forall_mem_map.mpr fun d _ => d.2
  have hlength : (history.map Subtype.val).length = history.length := List.length_map _
  have hinitial : ({} : Retirement) = Scan.retirement {} none := rfl
  simp only [decodeOwnedRetirementLeaseHistory, bind_eq_ok, demand_eq_ok, exists_const, hinitial,
    retireRecords_eq_ok root.2 hwell, Bool.and_eq_true, decide_eq_true_eq]
  constructor
  · rintro ⟨⟨-, hle⟩, -, _, ⟨os, scan, hos, hadmitted, hrecorded, hscans, rfl⟩, _, hretired,
      hresult⟩
    have hsound := Sound.run hscans sound_start rfl hrecorded
    rw [List.nil_append] at hsound
    rw [Option.or_none, checkRetired_eq_ok] at hretired
    obtain ⟨hpending, p, hp, hcompleted⟩ := hretired
    have hopened : scan.opened = [] := by rw [Scan.opened, hpending]
    have hrecords := hsound.records
    rw [hopened, List.append_nil] at hrecords
    refine ⟨hlength ▸ hle, scan.spans, hrecords ▸ hos, ⟨hrecords ▸ hadmitted, hrecords ▸ hrecorded,
      fun span hspan => hsound.first _ (hrecords ▸ head_flatMap_records hspan), hsound.closed,
      hsound.ordered, ?_⟩, (Except.ok.inj hresult).symm.trans hsound.result⟩
    rw [hrecords, getLast_flatMap_records, Option.map_eq_some_iff] at hp
    obtain ⟨last, hlast, rfl⟩ := hp
    exact ⟨last, hlast, hcompleted⟩
  · rintro ⟨hle, spans, hhistory, hretired, rfl⟩
    obtain ⟨last, hlast, hcompleted⟩ := hretired.current
    obtain ⟨closed, operations, flag, hscans, hclosed⟩ := sound_start.scans_spans
      hretired.recorded (fun _ => hretired.first) hretired.closed
      (by rw [List.map_nil, List.nil_append]; exact hretired.ordered)
    rw [List.map_nil, List.nil_append] at hclosed
    have hsound := Sound.run hscans sound_start rfl hretired.recorded
    have hnonempty : (!(history.map Subtype.val).isEmpty) = true := by
      rw [hhistory]
      cases spans with
      | nil => cases hlast
      | cons first rest => rfl
    have hp : (spans.flatMap Span.records).getLast?.or none = some last.completion := by
      rw [Option.or_none, getLast_flatMap_records, hlast]
      rfl
    refine ⟨⟨hnonempty, hlength.trans_le hle⟩, hex_of_completed hcompleted, _, ⟨_, _, hhistory,
      hretired.admitted, hretired.recorded, hscans, rfl⟩, (),
      checkRetired_eq_ok.mpr ⟨rfl, _, hp, hcompleted⟩, ?_⟩
    have hresult := hsound.result
    rw [Scan.spans, hclosed] at hresult
    exact congrArg Except.ok hresult

end Usk.Lease
