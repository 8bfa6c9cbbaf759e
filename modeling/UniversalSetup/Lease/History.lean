import UniversalSetup.Lease.Run

/-!
# Completed operations in a lease history

`select_completed_install_lease_history` replays a list of records, the oldest first, against the
two transitions of the protocol, and looks for the record that completed the operation of a given
active record. It accepts exactly the histories that runs leave behind, as long as the operation
does not show up again after its completion.
-/

namespace Usk.Lease

open Json

variable {log : List (Call × Ownership)} {original o : Ownership} {previous : Option Ownership}
  {os : List Ownership}

/-- The variables of the loop. -/
structure Selection where
  previous : Option Value := none
  completed : Option Value := none
  foundOriginal : Bool := false

variable {s : Selection}

/-- The record that the protocol would have written in place of `value`. -/
def expectedRecord (previous : Option Value) (root : Value) (installId : Bytes) (value : Value) :
    Result Value := do
  let status ← value.getString "status"
  if status == ascii "active" then
    let operation ← value.getString "operation"
    let operationId ← value.getString "operation_id"
    let attemptId ← value.getString "attempt_id"
    let expectedStateRevision ← value.getString "expected_state_revision"
    let operationContextSha256 ← value.getString "operation_context_sha256"
    deriveInstallLeaseOwnership previous
      { installId := installId, operation := operation, operationId := operationId,
        attemptId := attemptId, expectedStateRevision := expectedStateRevision, recovery := true,
        operationContextSha256 := operationContextSha256 }
      root (← value.get "holder") expectedStateRevision .ended
  else
    match previous with
    | none => .error installLeaseStale
    | some previous =>
      finishInstallLeaseOwnership previous root (← previous.get "holder")
        (← value.getString "result_state_revision") (status == ascii "handoff")

/-- `same_operation`. -/
def sameOperation (original value : Value) : Result Bool := do
  let operation ← original.getString "operation"
  let operationId ← original.getString "operation_id"
  let context ← original.getString "operation_context_sha256"
  pure ((← value.getString "operation") == operation &&
    (← value.getString "operation_id") == operationId &&
    (← value.getString "operation_context_sha256") == context)

/-- What the loop makes of a record that the protocol could have written. -/
def markRecord (original : Value) (s : Selection) (value : Value) : Result Selection := do
  if s.completed.isSome then
    let operationId ← original.getString "operation_id"
    demandString value "operation_id" (· != operationId) installLeaseStale
    pure { s with previous := some value }
  else if s.foundOriginal then
    demand (← sameOperation original value) installLeaseStale
    let status ← value.getString "status"
    pure { s with previous := some value,
                  completed := if status == ascii "completed" then some value else none }
  else
    let generation ← generationOf value
    let originalGeneration ← generationOf original
    let status ← value.getString "status"
    if generation == originalGeneration && status == ascii "active" then
      demand (equal value original) installLeaseStale
      pure { s with previous := some value, foundOriginal := true }
    else pure { s with previous := some value }

/-- One turn of the loop. -/
def selectRecord (original : Value) (s : Selection) (value : Value) : Result Selection := do
  let root ← original.get "state_root_identity"
  let installId ← original.getString "install_id"
  requireInstallLeaseRecord value
  demandString value "install_id" (· == installId) installLeaseStale
  demand (equal (← value.get "state_root_identity") root) installLeaseStale
  let expected ← expectedRecord s.previous root installId value
  demand (equal value expected) installLeaseStale
  markRecord original s value

def selectRecords (original : Value) : List Value → Selection → Result Selection
  | [], s => .ok s
  | value :: rest, s => do
    let s ← selectRecord original s value
    selectRecords original rest s

/-- `select_completed_install_lease_history`. -/
def selectCompletedInstallLeaseHistory (history : List Value) (originalActive : Value) :
    Result (Option Value) := do
  requireInstallLeaseRecord originalActive
  demandString originalActive "status" (· == ascii "active") installLeaseStale
  demand (!history.isEmpty && decide (history.length ≤ 4096)) installLeaseStale
  let s ← selectRecords originalActive history {}
  demand s.foundOriginal installLeaseStale
  pure s.completed

/-! ## Recorded histories -/

/-- One transition of the protocol. -/
inductive Transition (previous : Option Ownership) : Ownership → Prop
  | derive {request : InstallLeaseRequest} {root holder : Document} {revision : Bytes}
      {previousHolder : InstallLeasePreviousHolder} {o : Ownership} :
      Derives previous request root.1 holder.1 revision previousHolder o → Transition previous o
  | finish {p : Ownership} {revision : Bytes} (handoff : Bool) (h : hex revision 64 = true) :
      previous = some p → p.status = .active → Transition previous (p.finished revision handoff h)

/-- The ownerships that runs leave behind, the oldest first. -/
inductive Recorded : Option Ownership → List Ownership → Prop
  | nil (previous : Option Ownership) : Recorded previous []
  | cons {previous : Option Ownership} {o : Ownership} {rest : List Ownership} :
      Transition previous o → Recorded (some o) rest → Recorded previous (o :: rest)

theorem Recorded.concat {previous : Option Ownership} {o : Ownership} :
    ∀ {os : List Ownership}, Recorded previous os →
    Transition (os.getLast?.or previous) o → Recorded previous (os ++ [o])
  | [], _, ht => .cons (by simpa using ht) (.nil _)
  | p :: rest, .cons hp hrest, ht => by
    refine .cons hp (concat hrest ?_)
    rw [List.getLast?_cons] at ht
    cases h : rest.getLast? with
    | none => simpa [h] using ht
    | some q => simpa [h] using ht

/-- A legal log, read from its end. -/
theorem Legal.recorded (h : Legal log) : Recorded none (log.map Prod.snd).reverse := by
  have hlast : ∀ log : List (Call × Ownership),
      ((log.map Prod.snd).reverse.getLast?).or none = log.head?.map Prod.snd := by
    intro log
    cases log <;> simp
  induction h with
  | nil => exact .nil _
  | @derive log request root holder revision previousHolder o _ hd ih =>
    rw [List.map_cons, List.reverse_cons]
    exact ih.concat (.derive (by rw [hlast]; exact hd))
  | @finish log call o root holder revision handoff hrev _ hs hroot hholder ih =>
    rw [List.map_cons, List.reverse_cons]
    exact ih.concat (.finish handoff hrev (by rw [hlast]; rfl) hs)

/-- Every recorded history is what some calls leave behind. -/
theorem Recorded.exists_legal : ∀ {os : List Ownership} {log : List (Call × Ownership)},
    Legal log → Recorded (log.head?.map Prod.snd) os →
    ∃ log', Legal log' ∧ log'.map Prod.snd = os.reverse ++ log.map Prod.snd
  | [], log, hlog, _ => ⟨log, hlog, rfl⟩
  | o :: rest, log, hlog, .cons ht hrest => by
    have hnext : ∃ call, Legal ((call, o) :: log) := by
      cases ht with
      | derive hd => exact ⟨_, hlog.derive hd⟩
      | @finish p revision handoff hrev hp hs =>
        cases log with
        | nil => cases hp
        | cons e log =>
          obtain ⟨call, q⟩ := e
          cases hp
          exact ⟨.finish ⟨_, q.rooted.2⟩ ⟨_, q.held.2⟩ revision handoff,
            .finish hrev hlog hs rfl rfl⟩
    obtain ⟨call, hcall⟩ := hnext
    obtain ⟨log', hlegal, hmap⟩ := exists_legal hcall hrest
    exact ⟨log', hlegal, by rw [hmap, List.reverse_cons, List.append_assoc]; rfl⟩

/-- The calls of a legal log, made again. -/
theorem Legal.run_eq (h : Legal log) : run (log.map Prod.fst).reverse = log.map entry := by
  induction h with
  | nil => rfl
  | @derive log request root holder revision previousHolder o _ hd ih =>
    rw [List.map_cons, List.reverse_cons, run, List.foldl_append]
    rw [run] at ih
    rw [ih, List.foldl_cons, List.foldl_nil, step, current_map_entry]
    have happly := (derive_eq_ok root.2 holder.2).mpr ⟨o, rfl, hd⟩
    rw [Call.apply, happly]
    rfl
  | @finish log call o root holder revision handoff hrev _ hs hroot hholder ih =>
    rw [List.map_cons, List.reverse_cons, run, List.foldl_append]
    rw [run] at ih
    rw [ih, List.foldl_cons, List.foldl_nil, step, current_map_entry]
    have happly : Call.apply (some o.value) (.finish root holder revision handoff) =
        .ok (o.finished revision handoff hrev).value :=
      (finish_eq_ok o.wellFormed_value root.2 holder.2).mpr ⟨o, hrev, rfl, hs, hroot, hholder, rfl⟩
    rw [List.head?_cons, Option.map_some, Option.map_some, happly]
    rfl

/-! ## The loop on recorded ownerships -/

/-- Where the loop stands with the operation of the original record. -/
inductive Progress where
  | seeking
  | found
  | closed (completion : Ownership)

variable {p : Progress}

/-- The variables of the loop after the record of `previous`. -/
def Progress.selection (p : Progress) (previous : Option Ownership) : Selection :=
  match p with
  | .seeking => ⟨previous.map Ownership.value, none, false⟩
  | .found => ⟨previous.map Ownership.value, none, true⟩
  | .closed completion => ⟨previous.map Ownership.value, some completion.value, true⟩

theorem Progress.selection_previous (p : Progress) (previous : Option Ownership) :
    (p.selection previous).previous = previous.map Ownership.value := by
  cases p <;> rfl

/-- What one more record does to the search. -/
inductive Advances (original : Ownership) : Progress → Ownership → Progress → Prop
  | skip {o : Ownership} : ¬(o.generation = original.generation ∧ o.status = .active) →
      Advances original .seeking o .seeking
  | find : original.status = .active → Advances original .seeking original .found
  | proceed {o : Ownership} : original.SameOperation o →
      (∀ result, o.status ≠ .completed result) → Advances original .found o .found
  | complete {o : Ownership} {result : Bytes} : original.SameOperation o →
      o.status = .completed result → Advances original .found o (.closed o)
  | after {c o : Ownership} : o.operationId ≠ original.operationId →
      Advances original (.closed c) o (.closed c)

theorem sameOperation_eq (original o : Ownership) :
    sameOperation original.value o.value = .ok (o.operation == original.operation &&
      o.operationId == original.operationId &&
      o.operationContextSha256 == original.operationContextSha256) := by
  rw [sameOperation, original.getString_value "operation" rfl,
    original.getString_value "operation_id" rfl,
    original.getString_value "operation_context_sha256" rfl, o.getString_value "operation" rfl,
    o.getString_value "operation_id" rfl, o.getString_value "operation_context_sha256" rfl]
  rfl

/-- Before the original record has been found. -/
theorem markRecord_seeking :
    markRecord original.value (Progress.seeking.selection previous) o.value = .ok s ↔
      ∃ q, Advances original .seeking o q ∧ s = q.selection (some o) := by
  simp only [markRecord, Progress.selection, Option.isSome_none, Bool.false_eq_true, if_false,
    generationOf_value, o.getString_value "status" rfl, bind_eq_ok, Except.ok.injEq,
    exists_eq_left']
  split
  · next h =>
    rw [Bool.and_eq_true, beq_iff_eq, beq_iff_eq, Status.name_eq_active] at h
    simp only [bind_eq_ok, demand_eq_ok, equal_iff o.wellFormed_value original.wellFormed_value]
    constructor
    · rintro ⟨_, heq, hs⟩
      cases Ownership.value_injective heq
      exact ⟨.found, .find h.2, (Except.ok.inj hs).symm⟩
    · rintro ⟨q, hq, rfl⟩
      cases hq with
      | skip hn => exact absurd h hn
      | find => exact ⟨(), rfl, rfl⟩
  · next h =>
    rw [Bool.and_eq_true, beq_iff_eq, beq_iff_eq, Status.name_eq_active] at h
    constructor
    · intro hs
      exact ⟨.seeking, .skip h, (Except.ok.inj hs).symm⟩
    · rintro ⟨q, hq, rfl⟩
      cases hq with
      | skip => rfl
      | find ha => exact absurd ⟨rfl, ha⟩ h

/-- Between the original record and its completion. -/
theorem markRecord_found :
    markRecord original.value (Progress.found.selection previous) o.value = .ok s ↔
      ∃ q, Advances original .found o q ∧ s = q.selection (some o) := by
  simp only [markRecord, Progress.selection, Option.isSome_none, Bool.false_eq_true, if_false,
    if_true, sameOperation_eq, o.getString_value "status" rfl, bind_eq_ok, Except.ok.injEq,
    exists_eq_left', demand_eq_ok, Bool.and_eq_true, beq_iff_eq]
  constructor
  · rintro ⟨_, ⟨⟨h1, h2⟩, h3⟩, hs⟩
    have hsame : original.SameOperation o := ⟨h1.symm, h2.symm, h3.symm⟩
    cases hstatus : o.status with
    | completed result =>
      exact ⟨.closed o, .complete hsame hstatus, by rw [← Except.ok.inj hs, hstatus]; rfl⟩
    | active =>
      refine ⟨.found, .proceed hsame fun r hr => ?_, by rw [← Except.ok.inj hs, hstatus]; rfl⟩
      rw [hstatus] at hr
      cases hr
    | handoff result =>
      refine ⟨.found, .proceed hsame fun r hr => ?_, by rw [← Except.ok.inj hs, hstatus]; rfl⟩
      rw [hstatus] at hr
      cases hr
  · rintro ⟨q, hq, rfl⟩
    cases hq with
    | proceed hsame hn =>
      refine ⟨(), ⟨⟨hsame.operation.symm, hsame.operationId.symm⟩, hsame.context.symm⟩, ?_⟩
      rw [if_neg fun hc => ?_]
      · rfl
      · obtain ⟨result, hr⟩ := Status.name_eq_completed.mp hc
        exact hn result hr
    | complete hsame hs =>
      refine ⟨(), ⟨⟨hsame.operation.symm, hsame.operationId.symm⟩, hsame.context.symm⟩, ?_⟩
      rw [if_pos (Status.name_eq_completed.mpr ⟨_, hs⟩)]
      rfl

/-- After the completion. -/
theorem markRecord_closed {c : Ownership} :
    markRecord original.value ((Progress.closed c).selection previous) o.value = .ok s ↔
      ∃ q, Advances original (.closed c) o q ∧ s = q.selection (some o) := by
  simp only [markRecord, Progress.selection, Option.isSome_some, if_true,
    original.getString_value "operation_id" rfl, demandString_value o "operation_id" _ _ rfl,
    bind_eq_ok, Except.ok.injEq, exists_eq_left', demand_eq_ok, bne_iff_ne]
  constructor
  · rintro ⟨_, hne, hs⟩
    exact ⟨.closed c, .after hne, (Except.ok.inj hs).symm⟩
  · rintro ⟨q, hq, rfl⟩
    cases hq with
    | after hne => exact ⟨(), hne, rfl⟩

theorem markRecord_value :
    markRecord original.value (p.selection previous) o.value = .ok s ↔
      ∃ q, Advances original p o q ∧ s = q.selection (some o) := by
  cases p with
  | seeking => exact markRecord_seeking
  | found => exact markRecord_found
  | closed c => exact markRecord_closed

/-! ## Replaying -/

theorem exists_expected {root w : Value} {installId : Bytes} (hroot : WellFormed root)
    (h : expectedRecord (previous.map Ownership.value) root installId o.value = .ok w) :
    ∃ o' : Ownership, w = o'.value := by
  simp only [expectedRecord, o.getString_value "status" rfl, o.get_value "holder" rfl, bind_eq_ok,
    Except.ok.injEq, exists_eq_left'] at h
  split at h
  · simp only [bind_eq_ok, Except.ok.injEq, exists_eq_left'] at h
    obtain ⟨_, -, _, -, _, -, _, -, _, -, hw⟩ := h
    obtain ⟨o', rfl, -⟩ := (derive_eq_ok hroot o.held.2).mp hw
    exact ⟨o', rfl⟩
  · cases previous with
    | none => simp at h
    | some p =>
      simp only [Option.map_some, p.get_value "holder" rfl, bind_eq_ok, Except.ok.injEq,
        exists_eq_left', finish_eq_ok p.wellFormed_value hroot p.held.2] at h
      obtain ⟨_, -, q, hrev, -, -, -, -, rfl⟩ := h
      exact ⟨_, rfl⟩

/-- The record is the one that the protocol would have written. -/
theorem expectedRecord_value :
    expectedRecord (previous.map Ownership.value) o.stateRootIdentity o.installId o.value =
      .ok o.value ↔ Transition previous o := by
  simp only [expectedRecord, o.getString_value "status" rfl, o.getString_value "operation" rfl,
    o.getString_value "operation_id" rfl, o.getString_value "attempt_id" rfl,
    o.getString_value "expected_state_revision" rfl,
    o.getString_value "operation_context_sha256" rfl, o.get_value "holder" rfl, bind_eq_ok,
    Except.ok.injEq, exists_eq_left']
  by_cases ha : o.status = .active
  · rw [if_pos (beq_iff_eq.mpr (Status.name_eq_active.mpr ha))]
    simp only [bind_eq_ok, Except.ok.injEq, exists_eq_left']
    rw [derive_eq_ok o.rooted.2 o.held.2]
    constructor
    · rintro ⟨o', ho, hd⟩
      cases Ownership.value_injective ho
      exact @Transition.derive previous _ ⟨_, o.rooted.2⟩ ⟨_, o.held.2⟩ _ _ o hd
    · intro ht
      cases ht with
      | finish handoff =>
        cases handoff <;> cases ha
      | derive hd =>
        -- the recorded data do not say who asked, so the replay asks as a recovery
        refine ⟨o, rfl, rfl, rfl, rfl, rfl, ha, hd.first, fun p hp => ?_, hd.later⟩
        have h := hd.admitted p hp
        rw [hd.asked, hd.rooted, hd.current] at h
        refine ⟨h.installId, h.root, h.unexhausted, h.attempt, fun hn => ?_⟩
        have hc := h.continues hn
        exact ⟨rfl, hc.operation, hc.operationId, hc.context, fun _ => Or.inl rfl, hc.current⟩
  · rw [if_neg fun h => ha (Status.name_eq_active.mp (beq_iff_eq.mp h))]
    cases previous with
    | none =>
      refine ⟨fun h => by simp at h, fun ht => ?_⟩
      cases ht with
      | derive hd => exact absurd hd.active ha
      | finish _ _ hp => cases hp
    | some p =>
      simp only [Option.map_some, p.get_value "holder" rfl, bind_eq_ok, Except.ok.injEq,
        exists_eq_left', finish_eq_ok p.wellFormed_value o.rooted.2 p.held.2]
      constructor
      · rintro ⟨revision, -, q, hrev, hq, hs, -, -, ho⟩
        cases Ownership.value_injective hq
        rw [Ownership.value_injective ho]
        exact .finish _ hrev rfl hs
      · intro ht
        cases ht with
        | derive hd => exact absurd hd.active ha
        | @finish q revision handoff hrev hq hs =>
          cases hq
          have hresult : (p.finished revision handoff hrev).value.getString
              "result_state_revision" = .ok revision :=
            Ownership.getString_value _ _ (by cases handoff <;> rfl)
          refine ⟨revision, hresult, p, hrev, rfl, hs, rfl, rfl, ?_⟩
          cases handoff <;> rfl

/-- A history belongs to the installation and the state root of the original record. -/
def Concerns (original o : Ownership) : Prop :=
  o.installId = original.installId ∧ o.stateRootIdentity = original.stateRootIdentity

theorem selectRecord_eq_ok {v : Value} (hv : WellFormed v) :
    selectRecord original.value (p.selection previous) v = .ok s ↔
      ∃ o q, v = o.value ∧ Concerns original o ∧ Transition previous o ∧ Advances original p o q ∧
        s = q.selection (some o) := by
  simp only [selectRecord, original.get_value "state_root_identity" rfl,
    original.getString_value "install_id" rfl, bind_eq_ok, Except.ok.injEq, exists_eq_left',
    p.selection_previous]
  constructor
  · rintro ⟨_, hrec, _, hid, root, hroot, _, hroot', w, hw, _, hequal, hmark⟩
    obtain ⟨o, rfl⟩ := exists_ownership hv hrec
    rw [demandString_value o "install_id" _ _ rfl, demand_eq_ok, beq_iff_eq] at hid
    rw [o.get_value "state_root_identity" rfl] at hroot
    cases hroot
    rw [demand_eq_ok, equal_iff o.rooted.2 original.rooted.2] at hroot'
    obtain ⟨q, hq, rfl⟩ := markRecord_value.mp hmark
    obtain ⟨o', rfl⟩ := exists_expected original.rooted.2 hw
    rw [demand_eq_ok, equal_iff o.wellFormed_value o'.wellFormed_value] at hequal
    rw [← hequal, ← hid, ← hroot'] at hw
    exact ⟨o, q, rfl, ⟨hid, hroot'⟩, expectedRecord_value.mp hw, hq, rfl⟩
  · rintro ⟨o, q, rfl, ⟨hid, hroot⟩, ht, hq, rfl⟩
    refine ⟨(), o.requireInstallLeaseRecord_value, (), ?_, _, o.get_value _ rfl, (), ?_, o.value,
      ?_, (), ?_, markRecord_value.mpr ⟨q, hq, rfl⟩⟩
    · rw [demandString_value o "install_id" _ _ rfl, demand_eq_ok, beq_iff_eq]
      exact hid
    · exact demand_eq_ok.mpr ((equal_iff o.rooted.2 original.rooted.2).mpr hroot)
    · rw [← hid, ← hroot]
      exact expectedRecord_value.mpr ht
    · exact demand_eq_ok.mpr (beq_self_eq_true _)

/-- The search over a whole history. -/
inductive Walks (original : Ownership) : Progress → List Ownership → Progress → Prop
  | nil (p : Progress) : Walks original p [] p
  | cons {p q r : Progress} {o : Ownership} {rest : List Ownership} :
      Advances original p o q → Walks original q rest r → Walks original p (o :: rest) r

theorem Walks.append {q r : Progress} {rest : List Ownership} (h : Walks original p os q)
    (hrest : Walks original q rest r) : Walks original p (os ++ rest) r := by
  induction h with
  | nil => exact hrest
  | cons ha _ ih => exact .cons ha (ih hrest)

/-- The loop accepts the recorded histories that the search gets through. -/
theorem selectRecords_eq_ok {original : Ownership} {s : Selection} :
    ∀ {history : List Value} {p : Progress} {previous : Option Ownership},
    (∀ v ∈ history, WellFormed v) →
    (selectRecords original.value history (p.selection previous) = .ok s ↔
      ∃ os q, history = os.map Ownership.value ∧ (∀ o ∈ os, Concerns original o) ∧
        Recorded previous os ∧ Walks original p os q ∧
        s = q.selection (os.getLast?.or previous))
  | [], p, previous, _ => by
    rw [selectRecords]
    constructor
    · intro h
      exact ⟨[], p, rfl, by simp, .nil _, .nil _, (Except.ok.inj h).symm⟩
    · rintro ⟨os, q, hos, -, -, hw, rfl⟩
      cases List.map_eq_nil_iff.mp hos.symm
      cases hw
      rfl
  | v :: rest, p, previous, hwell => by
    have hv := hwell v List.mem_cons_self
    have hrest := fun w hw => hwell w (List.mem_cons_of_mem v hw)
    simp only [selectRecords, bind_eq_ok, selectRecord_eq_ok hv]
    constructor
    · rintro ⟨_, ⟨o, q, rfl, hc, ht, ha, rfl⟩, hsel⟩
      obtain ⟨os, r, rfl, hcs, hrec, hw, rfl⟩ := (selectRecords_eq_ok hrest).mp hsel
      refine ⟨o :: os, r, rfl, List.forall_mem_cons.mpr ⟨hc, hcs⟩, .cons ht hrec, .cons ha hw, ?_⟩
      rw [List.getLast?_cons]
      cases os.getLast? <;> rfl
    · rintro ⟨os, r, hos, hcs, hrec, hw, rfl⟩
      obtain ⟨o, tail, rfl, rfl, rfl⟩ := List.map_eq_cons_iff.mp hos.symm
      cases hrec with
      | cons ht hrec =>
        cases hw with
        | cons ha hw =>
          refine ⟨_, ⟨o, _, rfl, hcs o List.mem_cons_self, ht, ha, rfl⟩, ?_⟩
          refine (selectRecords_eq_ok hrest).mpr ⟨tail, r, rfl,
            fun x hx => hcs x (List.mem_cons_of_mem o hx), hrec, hw, ?_⟩
          rw [List.getLast?_cons]
          cases tail.getLast? <;> rfl

/-- What the selection makes of the search. -/
def Progress.result : Progress → Option Value
  | .closed completion => some completion.value
  | _ => none

theorem select_eq_ok {history : List Value} {v : Value} {result : Option Value}
    (hhistory : ∀ w ∈ history, WellFormed w) (hv : WellFormed v) :
    selectCompletedInstallLeaseHistory history v = .ok result ↔
      ∃ (original : Ownership) (os : List Ownership) (q : Progress), v = original.value ∧
        original.status = .active ∧ history = os.map Ownership.value ∧ history.length ≤ 4096 ∧
        (∀ o ∈ os, Concerns original o) ∧ Recorded none os ∧ Walks original .seeking os q ∧
        q ≠ .seeking ∧ result = q.result := by
  have hfound : ∀ (q : Progress) (previous : Option Ownership),
      (q.selection previous).foundOriginal = true ↔ q ≠ .seeking := by
    intro q previous
    cases q <;> simp [Progress.selection]
  have hcompleted : ∀ (q : Progress) (previous : Option Ownership),
      (q.selection previous).completed = q.result := by
    intro q previous
    cases q <;> rfl
  have hinitial : ({} : Selection) = Progress.seeking.selection none := rfl
  simp only [selectCompletedInstallLeaseHistory, bind_eq_ok, hinitial, demand_eq_ok,
    Bool.and_eq_true, decide_eq_true_eq, exists_const]
  constructor
  · rintro ⟨_, hrec, _, hstatus, ⟨-, hlength⟩, s, hs, hf, hresult⟩
    obtain ⟨original, rfl⟩ := exists_ownership hv hrec
    rw [demandString_value original "status" _ _ rfl, demand_eq_ok, beq_iff_eq,
      Status.name_eq_active] at hstatus
    obtain ⟨os, q, rfl, hcs, hrecorded, hw, rfl⟩ := (selectRecords_eq_ok hhistory).mp hs
    rw [hfound] at hf
    exact ⟨original, os, q, rfl, hstatus, rfl, hlength, hcs, hrecorded, hw, hf,
      (Except.ok.inj hresult).symm.trans (hcompleted _ _)⟩
  · rintro ⟨original, os, q, rfl, hstatus, rfl, hlength, hcs, hrecorded, hw, hq, rfl⟩
    have hnonempty : (!(os.map Ownership.value).isEmpty) = true := by
      cases hw with
      | nil => exact absurd rfl hq
      | cons => rfl
    refine ⟨(), original.requireInstallLeaseRecord_value, (), ?_, ⟨hnonempty, hlength⟩, _,
      (selectRecords_eq_ok hhistory).mpr ⟨os, q, rfl, hcs, hrecorded, hw, rfl⟩, (hfound _ _).mpr hq,
      congrArg Except.ok (hcompleted _ _)⟩
    rw [demandString_value original "status" _ _ rfl, demand_eq_ok, beq_iff_eq]
    exact Status.name_eq_active.mpr hstatus

/-! ## The search in a legal log -/

theorem Transition.concerns {p : Ownership} (h : Transition (some p) o) : Concerns p o := by
  cases h with
  | derive hd =>
    have ha := hd.admitted p rfl
    rw [hd.asked] at ha
    exact ⟨ha.installId.symm, (ha.root.trans hd.rooted).symm⟩
  | finish _ _ hp _ =>
    cases hp
    exact ⟨rfl, rfl⟩

theorem Concerns.trans {p q : Ownership} (h : Concerns o p) (h' : Concerns p q) : Concerns o q :=
  ⟨h'.1.trans h.1, h'.2.trans h.2⟩

/-- A recorded history is about one installation. -/
theorem Recorded.concerns : ∀ {os : List Ownership} {p : Ownership}, Recorded (some p) os →
    ∀ o ∈ os, Concerns p o
  | _ :: _, p, .cons ht hrest, q, hq => by
    rcases List.mem_cons.mp hq with rfl | hq
    · exact ht.concerns
    · exact ht.concerns.trans (concerns hrest q hq)

theorem Recorded.concerns_all (h : Recorded none os) {p : Ownership} (ho : o ∈ os) (hp : p ∈ os) :
    Concerns o p := by
  cases h with
  | nil => cases ho
  | @cons _ first rest _ hrest =>
    have hfirst : ∀ q ∈ first :: rest, Concerns first q := by
      intro q hq
      rcases List.mem_cons.mp hq with rfl | hq
      · exact ⟨rfl, rfl⟩
      · exact hrest.concerns q hq
    exact ⟨(hfirst p hp).1.trans (hfirst o ho).1.symm, (hfirst p hp).2.trans (hfirst o ho).2.symm⟩

theorem Advances.unique {q r : Progress} (hq : Advances original p o q)
    (hr : Advances original p o r) : q = r := by
  cases hq with
  | skip hn =>
    cases hr with
    | skip => rfl
    | find ha => exact absurd ⟨rfl, ha⟩ hn
  | find ha =>
    cases hr with
    | skip hn => exact absurd ⟨rfl, ha⟩ hn
    | find => rfl
  | proceed _ hn =>
    cases hr with
    | proceed => rfl
    | complete _ hs => exact absurd hs (hn _)
  | complete _ hs =>
    cases hr with
    | proceed _ hn => exact absurd hs (hn _)
    | complete => rfl
  | after => cases hr; rfl

/-- A search that got through the beginning of a history goes on from there. -/
theorem Walks.rest {q r : Progress} {rest : List Ownership} (h : Walks original p os q)
    (hall : Walks original p (os ++ rest) r) : Walks original q rest r := by
  induction h with
  | nil => exact hall
  | cons ha _ ih =>
    cases hall with
    | cons hb hall =>
      cases ha.unique hb
      exact ih hall

theorem walks_closed {original c : Ownership} {r : Progress} : ∀ {os : List Ownership},
    Walks original (.closed c) os r ↔
      (∀ o ∈ os, o.operationId ≠ original.operationId) ∧ r = .closed c
  | [] => by
    constructor
    · intro h
      cases h
      exact ⟨by simp, rfl⟩
    · rintro ⟨-, rfl⟩
      exact .nil _
  | o :: rest => by
    rw [List.forall_mem_cons]
    constructor
    · intro h
      cases h with
      | cons ha hw =>
        cases ha with
        | after hne =>
          obtain ⟨hrest, rfl⟩ := walks_closed.mp hw
          exact ⟨⟨hne, hrest⟩, rfl⟩
    · rintro ⟨⟨hne, hrest⟩, rfl⟩
      exact .cons (.after hne) (walks_closed.mpr ⟨hrest, rfl⟩)

theorem walks_seeking {original : Ownership} : ∀ {os : List Ownership},
    (∀ o ∈ os, o.generation ≠ original.generation) → Walks original .seeking os .seeking
  | [], _ => .nil _
  | o :: _, h => .cons (.skip fun hc => h o List.mem_cons_self hc.1)
      (walks_seeking fun q hq => h q (List.mem_cons_of_mem o hq))

theorem walks_found {original : Ownership} : ∀ {os : List Ownership},
    (∀ o ∈ os, original.SameOperation o ∧ ∀ result, o.status ≠ .completed result) →
    Walks original .found os .found
  | [], _ => .nil _
  | o :: _, h => .cons (.proceed (h o List.mem_cons_self).1 (h o List.mem_cons_self).2)
      (walks_found fun q hq => h q (List.mem_cons_of_mem o hq))

/-- In a legal log the search finds the completion of every active record. -/
theorem Legal.walks {log : List (Call × Ownership)} (h : Legal log)
    {before between after : List Ownership} {original completion : Ownership} {result : Bytes}
    (hlog : (log.map Prod.snd).reverse = before ++ original :: (between ++ completion :: after))
    (ha : original.status = .active) (hn : ∀ o ∈ between, ∀ result, o.status ≠ .completed result)
    (hc : completion.status = .completed result) :
    Walks original .seeking (before ++ original :: (between ++ [completion]))
      (.closed completion) ∧ original.SameOperation completion := by
  have hmap : log.map Prod.snd =
      after.reverse ++ completion :: (between.reverse ++ original :: before.reverse) := by
    rw [← List.reverse_reverse (log.map Prod.snd), hlog]
    simp
  -- the log, cut at the completion and at the original record
  obtain ⟨later, r, rfl, -, hr⟩ := List.map_eq_append_iff.mp hmap
  obtain ⟨⟨call, c⟩, s, rfl, hcut, hs⟩ := List.map_eq_cons_iff.mp hr
  obtain ⟨mid, t, rfl, hmid, ht⟩ := List.map_eq_append_iff.mp hs
  obtain ⟨⟨call', o⟩, earlier, rfl, hcut', hearlier⟩ := List.map_eq_cons_iff.mp ht
  obtain rfl : c = completion := hcut
  obtain rfl : o = original := hcut'
  have hopen : ∀ g ∈ mid ++ [(call', o)], ∀ result, g.2.status ≠ .completed result := by
    intro g hg result' hresult
    rcases List.mem_append.mp hg with hg | hg
    · refine hn g.2 ?_ result' hresult
      rw [← List.mem_reverse, ← hmid]
      exact List.mem_map_of_mem hg
    · cases List.mem_singleton.mp hg
      exact absurd (ha.symm.trans hresult) (by simp)
  have hsame : ∀ q ∈ between, o.SameOperation q := by
    intro q hq
    rw [← List.mem_reverse, ← hmid] at hq
    obtain ⟨g, hg, rfl⟩ := List.mem_map.mp hq
    obtain ⟨front, back, rfl⟩ := List.append_of_mem hg
    have hlegal := h.suffix.tail
    rw [List.append_assoc] at hlegal
    refine hlegal.suffix.sameOperation_until fun x hx => hopen x ?_
    rw [List.append_assoc]
    exact List.mem_append_right _ (List.mem_cons_of_mem g hx)
  have holder : ∀ q ∈ before, q.generation ≠ o.generation := by
    intro q hq hgen
    rw [← List.mem_reverse, ← hearlier] at hq
    obtain ⟨f, hf, rfl⟩ := List.mem_map.mp hq
    have hlt := (h.suffix.tail.suffix.generation rfl f hf).2 ha
    rw [hgen] at hlt
    exact absurd hlt (Nat.lt_irrefl _)
  have hcompletion : o.SameOperation c := h.suffix.sameOperation_until hopen
  exact ⟨(walks_seeking holder).append (.cons (.find ha)
    ((walks_found fun q hq => ⟨hsame q hq, hn q hq⟩).append
      (.cons (.complete hcompletion hc) (.nil _)))), hcompletion⟩

/-- The records of a run, the oldest first. -/
def history (calls : List Call) : List Value :=
  ((run calls).map Entry.record).reverse

theorem history_eq {calls : List Call} (h : run calls = log.map entry) :
    history calls = (log.map Prod.snd).reverse.map Ownership.value := by
  rw [history, h, List.map_map, List.map_reverse, List.map_map]
  rfl

/-- The selection after a run, for an active record and the completion that follows it. -/
theorem select_history {calls : List Call} {before between after : List Value}
    {original completion : Value}
    (hhistory : history calls = before ++ original :: (between ++ completion :: after))
    (hlength : (history calls).length ≤ 4096) (ha : HasStatus original "active")
    (hn : ∀ v ∈ between, ¬HasStatus v "completed") (hc : HasStatus completion "completed") :
    SameOperation original completion ∧
    (selectCompletedInstallLeaseHistory (history calls) original = .ok (some completion) ↔
      ∀ v ∈ after, v.get "operation_id" ≠ original.get "operation_id") := by
  obtain ⟨log, hlegal, hrun⟩ := exists_legal calls
  have hrecords := history_eq hrun
  have hwell : ∀ w ∈ history calls, WellFormed w := by
    rw [hrecords]
    intro w hw
    obtain ⟨o, -, rfl⟩ := List.mem_map.mp hw
    exact o.wellFormed_value
  have hos := hrecords.symm.trans hhistory
  obtain ⟨bs, r, hbs, rfl, hr⟩ := List.map_eq_append_iff.mp hos
  obtain ⟨o, s, rfl, rfl, hs⟩ := List.map_eq_cons_iff.mp hr
  obtain ⟨ms, t, rfl, rfl, ht⟩ := List.map_eq_append_iff.mp hs
  obtain ⟨c, as, rfl, rfl, rfl⟩ := List.map_eq_cons_iff.mp ht
  rw [hasStatus_value, Status.name_eq_active] at ha
  obtain ⟨result, hresult⟩ := Status.name_eq_completed.mp (hasStatus_value.mp hc)
  obtain ⟨hwalks, hsame⟩ := hlegal.walks hbs ha (fun q hq r hr =>
    hn q.value (List.mem_map_of_mem hq)
      (hasStatus_value.mpr (Status.name_eq_completed.mpr ⟨r, hr⟩))) hresult
  have hsplit : bs ++ o :: (ms ++ c :: as) = (bs ++ o :: (ms ++ [c])) ++ as := by simp
  have hids : (∀ v ∈ as.map Ownership.value, v.get "operation_id" ≠ o.value.get "operation_id") ↔
      ∀ q ∈ as, q.operationId ≠ o.operationId := by
    simp only [List.forall_mem_map, Ownership.get_value _ "operation_id" rfl, ne_eq,
      Except.ok.injEq, Value.string.injEq]
  refine ⟨sameOperation_value hsame, ?_⟩
  rw [hids, select_eq_ok hwell o.wellFormed_value, hrecords, hbs]
  constructor
  · rintro ⟨o', os, q, ho, -, hmap, -, -, -, hall, -, -⟩
    cases Ownership.value_injective ho
    cases List.map_injective_iff.mpr (fun _ _ => Ownership.value_injective) hmap
    rw [hsplit] at hall
    exact (walks_closed.mp (hwalks.rest hall)).1
  · intro hne
    have hrecorded := hlegal.recorded
    rw [hbs] at hrecorded
    refine ⟨o, _, .closed c, rfl, ha, rfl, ?_, ?_, hrecorded, ?_, by simp, rfl⟩
    · rwa [hrecords, hbs] at hlength
    · exact fun q hq => hrecorded.concerns_all (by simp) hq
    · rw [hsplit]
      exact hwalks.append (walks_closed.mpr ⟨hne, rfl⟩)

/-- Only the records of runs are accepted. -/
theorem history_of_select {records : List Document} {original : Document}
    {result : Option Value}
    (h : selectCompletedInstallLeaseHistory (records.map Subtype.val) original.1 = .ok result) :
    ∃ calls, history calls = records.map Subtype.val := by
  have hwell : ∀ w ∈ records.map Subtype.val, WellFormed w := by
    intro w hw
    obtain ⟨d, -, rfl⟩ := List.mem_map.mp hw
    exact d.2
  obtain ⟨o, os, q, -, -, hos, -, -, hrecorded, -⟩ := (select_eq_ok hwell original.2).mp h
  obtain ⟨log, hlegal, hmap⟩ := hrecorded.exists_legal .nil
  refine ⟨(log.map Prod.fst).reverse, ?_⟩
  rw [history_eq hlegal.run_eq, hmap, hos]
  simp

/-! ## An identifier that is used again -/

/-- A first lease. -/
def sampleLease : Ownership where
  installId := ascii "install.one"
  operation := ascii "install_local"
  operationId := ascii "op.install"
  attemptId := ascii "attempt.1"
  operationContextSha256 := List.replicate 64 0x61
  stateRootIdentity := .object [(ascii "file_id", .string (List.replicate 32 0x31)),
    (ascii "volume_serial", .string (ascii "7"))]
  holder := .object [(ascii "process_creation_time", .string (List.replicate 16 0x31)),
    (ascii "process_id", .unsigned 4)]
  generation := 1
  expectedStateRevision := List.replicate 64 0x62
  status := .active
  predecessorSha256 := none
  identified := rfl
  rooted := ⟨rfl, wellFormed_object.mpr ⟨List.pairwise_pair.mpr (by decide), by simp [WellFormed]⟩⟩
  held := ⟨rfl, wellFormed_object.mpr ⟨List.pairwise_pair.mpr (by decide), by simp [WellFormed]⟩⟩
  numbered := by decide
  linked := rfl
  resulted := rfl

/-- The same lease, completed. -/
def sampleCompletion : Ownership :=
  sampleLease.finished (List.replicate 64 0x62) false rfl

/-- A lease that follows the completion, for an operation of its own or for the first one again. -/
def sampleSuccessor (again : Bool) : Ownership :=
  { sampleLease with
    operationId := if again then ascii "op.install" else ascii "op.repair"
    attemptId := ascii "attempt.2"
    generation := 2
    predecessorSha256 := some sampleCompletion.digest
    identified := by cases again <;> rfl
    numbered := by decide
    linked := checkPredecessor_succ (p := sampleCompletion) (by decide) }

def sampleRoot : Document :=
  ⟨sampleLease.stateRootIdentity, sampleLease.rooted.2⟩

def sampleHolder : Document :=
  ⟨sampleLease.holder, sampleLease.held.2⟩

/-- The log of the three transitions, the latest first. -/
def sampleLog (again : Bool) : List (Call × Ownership) :=
  [(.derive ((sampleSuccessor again).request false) sampleRoot sampleHolder
      (List.replicate 64 0x62) .unknown, sampleSuccessor again),
    (.finish sampleRoot sampleHolder (List.replicate 64 0x62) false, sampleCompletion),
    (.derive (sampleLease.request false) sampleRoot sampleHolder (List.replicate 64 0x62) .unknown,
      sampleLease)]

theorem legal_sampleLog (again : Bool) : Legal (sampleLog again) := by
  refine .derive (.finish rfl (.derive .nil ?_) rfl rfl rfl) ?_
  · refine ⟨rfl, rfl, rfl, rfl, rfl, fun _ => ⟨rfl, rfl⟩, ?_, ?_⟩
    · intro p hp
      cases hp
    · intro p hp
      cases hp
  · refine ⟨rfl, rfl, rfl, rfl, rfl, ?_, ?_, ?_⟩
    · intro hp
      cases hp
    · intro p hp
      cases hp
      have hattempt : ascii "attempt.1" ≠ ascii "attempt.2" := by decide
      exact ⟨rfl, rfl, by decide, hattempt, fun hn => absurd rfl (hn (List.replicate 64 0x62))⟩
    · intro p hp
      cases hp
      exact ⟨rfl, rfl⟩

theorem history_sampleLog (again : Bool) :
    history ((sampleLog again).map Prod.fst).reverse =
      [sampleLease.value, sampleCompletion.value, (sampleSuccessor again).value] :=
  history_eq (legal_sampleLog again).run_eq

/-- A run that uses the identifier of a completed operation again, which the derivation allows. The
first lease is completed, and yet the selection refuses to say so. -/
theorem reused_identifier_refused :
    ∃ calls original completion later, history calls = [original, completion, later] ∧
      HasStatus original "active" ∧ HasStatus completion "completed" ∧
      SameOperation original completion ∧
      ∀ result, selectCompletedInstallLeaseHistory (history calls) original ≠ .ok result := by
  refine ⟨_, _, _, _, history_sampleLog true, ?_, ?_, ?_, ?_⟩
  · exact hasStatus_value.mpr rfl
  · exact hasStatus_value.mpr rfl
  · exact sameOperation_value ⟨rfl, rfl, rfl⟩
  · intro result h
    have hwalks := (@Legal.walks _ (legal_sampleLog true) [] [] [sampleSuccessor true] _ _ _ rfl rfl
      (by simp) rfl).1
    rw [history_sampleLog, select_eq_ok (by simp [Ownership.wellFormed_value])
      sampleLease.wellFormed_value] at h
    obtain ⟨o, os, q, ho, -, hos, -, -, -, hall, -⟩ := h
    cases Ownership.value_injective ho
    cases List.map_injective_iff.mpr (fun _ _ => Ownership.value_injective)
      (show [sampleLease, sampleCompletion, sampleSuccessor true].map Ownership.value = _ from hos)
    exact (walks_closed.mp (hwalks.rest hall)).1 _ List.mem_cons_self rfl

/-- The selection is for the histories of runs. For an active record that is followed by a
completion, it returns the completion unless the identifier of the operation is used again later. -/
theorem select_completed_sound_complete :
    (∀ (calls : List Call) (before between after : List Value) (original completion : Value),
      history calls = before ++ original :: (between ++ completion :: after) →
      (history calls).length ≤ 4096 → HasStatus original "active" →
      (∀ v ∈ between, ¬HasStatus v "completed") → HasStatus completion "completed" →
      SameOperation original completion ∧
      (selectCompletedInstallLeaseHistory (history calls) original = .ok (some completion) ↔
        ∀ v ∈ after, v.get "operation_id" ≠ original.get "operation_id")) ∧
    ∀ (records : List Document) (original : Document),
      (¬∃ calls, history calls = records.map Subtype.val) →
      ∀ result, selectCompletedInstallLeaseHistory (records.map Subtype.val) original.1 ≠
        .ok result := by
  constructor
  · intro calls before between after original completion hhistory hlength ha hn hc
    exact select_history hhistory hlength ha hn hc
  · intro records original hno result h
    exact hno (history_of_select h)

/-- The completion that follows the lease is selected, past the record of the next lease. -/
theorem sampleLease_selected :
    selectCompletedInstallLeaseHistory
      [sampleLease.value, sampleCompletion.value, (sampleSuccessor false).value]
      sampleLease.value = .ok (some sampleCompletion.value) := by
  have h := select_completed_sound_complete.1 ((sampleLog false).map Prod.fst).reverse [] []
    [(sampleSuccessor false).value] sampleLease.value sampleCompletion.value
  rw [history_sampleLog] at h
  refine (h rfl (by decide) (hasStatus_value.mpr rfl) (by simp) (hasStatus_value.mpr rfl)).2.mpr ?_
  intro v hv
  cases List.mem_singleton.mp hv
  rw [Ownership.get_value _ "operation_id" rfl, Ownership.get_value _ "operation_id" rfl]
  simp only [ne_eq, Except.ok.injEq, Value.string.injEq]
  decide

end Usk.Lease
