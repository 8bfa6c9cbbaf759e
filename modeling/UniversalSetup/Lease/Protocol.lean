import UniversalSetup.Lease.Ownership

/-!
# The lease protocol

Deriving and finishing, as transitions between ownerships. `Derives` says when a request may follow
the current ownership and what it becomes; `finished` is the other transition. The functions on
documents do exactly these transitions.
-/

namespace Usk.Lease

open Json

variable {u : Unit} {generation : UInt64} {predecessor value root : Value}
  {previousHolder holder : InstallLeasePreviousHolder} {p : Ownership} {revision : Bytes}
  {previous : Option Ownership}

namespace Ownership

/-- The request that an ownership answers. -/
def request (o : Ownership) (recovery : Bool) : InstallLeaseRequest :=
  { installId := o.installId, operation := o.operation, operationId := o.operationId,
    attemptId := o.attemptId, expectedStateRevision := o.expectedStateRevision, recovery,
    operationContextSha256 := o.operationContextSha256 }

/-- Two ownerships of one operation. -/
structure SameOperation (o p : Ownership) : Prop where
  operation : o.operation = p.operation
  operationId : o.operationId = p.operationId
  context : o.operationContextSha256 = p.operationContextSha256

end Ownership

/-- What an unfinished ownership asks of a request that is to continue it. -/
structure Continues (p : Ownership) (request : InstallLeaseRequest) (revision : Bytes)
    (holder : InstallLeasePreviousHolder) : Prop where
  recovery : request.recovery = true
  operation : p.operation = request.operation
  operationId : p.operationId = request.operationId
  context : p.operationContextSha256 = request.operationContextSha256
  ended : p.status = .active → holder = .ended ∨ holder = .identityReused
  current : ∀ result, p.status = .handoff result → result = revision

/-- What the current ownership asks of a request. -/
structure Admits (p : Ownership) (request : InstallLeaseRequest) (root : Value) (revision : Bytes)
    (holder : InstallLeasePreviousHolder) : Prop where
  installId : p.installId = request.installId
  root : p.stateRootIdentity = root
  unexhausted : p.generation ≠ 0xffffffffffffffff
  attempt : p.attemptId ≠ request.attemptId
  continues : (∀ result, p.status ≠ .completed result) → Continues p request revision holder

/-- What a derivation makes of a request, after the ownership `previous` or as the first one. -/
structure Derives (previous : Option Ownership) (request : InstallLeaseRequest)
    (root holder : Value) (revision : Bytes) (previousHolder : InstallLeasePreviousHolder)
    (o : Ownership) : Prop where
  asked : request = o.request request.recovery
  rooted : root = o.stateRootIdentity
  held : holder = o.holder
  current : revision = o.expectedStateRevision
  active : o.status = .active
  first : previous = none → o.generation = 1 ∧ o.predecessorSha256 = none
  admitted : ∀ p, previous = some p → Admits p request root revision previousHolder
  later : ∀ p, previous = some p →
    o.generation = p.generation + 1 ∧ o.predecessorSha256 = some p.digest

/-! ## Deriving -/

theorem demandString_value (o : Ownership) (key : String) {s : Bytes} (p : Bytes → Bool)
    (message : String) (h : ByteMap.find o.fields (ascii key) = some (.string s)) :
    demandString o.value key p message = demand (p s) message := by
  rw [demandString, o.getString_value key h]
  rfl

theorem checkContinuation_value {request : InstallLeaseRequest}
    (hp : ∀ result, p.status ≠ .completed result) :
    checkContinuation p.value p.status.name request revision holder = .ok u ↔
      Continues p request revision holder := by
  rw [checkContinuation, demandString_value p "operation" _ _ rfl,
    demandString_value p "operation_id" _ _ rfl,
    demandString_value p "operation_context_sha256" _ _ rfl]
  simp only [bind_eq_ok, demand_eq_ok, beq_iff_eq, exists_const, Bool.or_eq_true]
  cases hs : p.status with
  | completed result => exact absurd hs (hp result)
  | active =>
    rw [if_neg (by decide)]
    constructor
    · rintro ⟨hr, h1, h2, h3, hh, -⟩
      refine ⟨hr, h1, h2, h3, fun _ => ?_, fun r hc => absurd (hs.symm.trans hc) (by simp)⟩
      rcases hh with (hh | hh) | hh
      · exact absurd hh (by decide)
      · exact Or.inl hh
      · exact Or.inr hh
    · intro h
      refine ⟨h.recovery, h.operation, h.operationId, h.context, ?_, rfl⟩
      rcases h.ended hs with hh | hh
      · exact Or.inl (Or.inr hh)
      · exact Or.inr hh
  | handoff result =>
    rw [if_pos (by rfl), demandString_value p "result_state_revision" (s := result) _ _ (by
      change some p.status.result = _
      rw [hs]
      rfl), demand_eq_ok, beq_iff_eq]
    constructor
    · rintro ⟨hr, h1, h2, h3, -, he⟩
      refine ⟨hr, h1, h2, h3, fun hc => absurd (hs.symm.trans hc) (by simp), fun r hc => ?_⟩
      rw [hs] at hc
      cases hc
      exact he
    · intro h
      exact ⟨h.recovery, h.operation, h.operationId, h.context, Or.inl (Or.inl rfl),
        h.current result hs⟩

theorem checkUnfinished_value {request : InstallLeaseRequest} :
    checkUnfinished p.value p.status.name request revision holder = .ok u ↔
      ((∀ result, p.status ≠ .completed result) → Continues p request revision holder) := by
  unfold checkUnfinished
  split
  · next hc =>
    obtain ⟨result, hresult⟩ := Status.name_eq_completed.mp (beq_iff_eq.mp hc)
    exact ⟨fun _ hn => absurd hresult (hn result), fun _ => rfl⟩
  · next hc =>
    have hn : ∀ result, p.status ≠ .completed result := fun result hresult =>
      hc (beq_iff_eq.mpr (Status.name_eq_completed.mpr ⟨result, hresult⟩))
    rw [checkContinuation_value hn]
    exact ⟨fun h _ => h, fun h => h hn⟩

/-- The checks on the current record. -/
theorem follow_value {request : InstallLeaseRequest} (hroot : WellFormed root) :
    follow p.value request root revision holder = .ok (generation, predecessor) ↔
      Admits p request root revision holder ∧ generation = p.generation + 1 ∧
        predecessor = .string p.digest := by
  rw [follow, p.requireInstallLeaseRecord_value, demandString_value p "install_id" _ _ rfl,
    demandString_value p "attempt_id" _ _ rfl, p.get_value "state_root_identity" rfl,
    p.get_value "generation" rfl, p.getString_value "status" rfl,
    p.get_value "ownership_sha256" rfl]
  simp only [bind_eq_ok, demand_eq_ok, checkUnfinished_value, Except.ok.injEq, exists_eq_left',
    exists_const, asUnsigned_eq_ok, Value.unsigned.injEq, beq_iff_eq, Bool.not_eq_true',
    beq_eq_false_iff_ne, bne_iff_ne, pure, Except.pure, Prod.mk.injEq,
    equal_iff p.rooted.2 hroot, true_and]
  constructor
  · rintro ⟨h1, h2, h3, h4, h5, h6, h7⟩
    exact ⟨⟨h1, h2, h3, h4, h5⟩, h6.symm, h7.symm⟩
  · rintro ⟨⟨h1, h2, h3, h4, h5⟩, h6, h7⟩
    exact ⟨h1, h2, h3, h4, h5, h6.symm, h7.symm⟩

/-- The generation and the predecessor of a new record, in the shape that an ownership has them. -/
theorem precede_value {request : InstallLeaseRequest} (hroot : WellFormed root) :
    precede (previous.map Ownership.value) request root revision holder =
      .ok (generation, predecessor) ↔
    (previous = none → generation = 1 ∧ predecessor = .null) ∧
      ∀ p, previous = some p → Admits p request root revision holder ∧
        generation = p.generation + 1 ∧ predecessor = .string p.digest := by
  cases previous with
  | none =>
    simp only [precede, Option.map_none, Except.ok.injEq, Prod.mk.injEq, true_imp_iff,
      reduceCtorEq, false_imp_iff, implies_true, and_true]
    exact ⟨fun h => ⟨h.1.symm, h.2.symm⟩, fun h => ⟨h.1.symm, h.2.symm⟩⟩
  | some p =>
    simp only [precede, Option.map_some, follow_value hroot, reduceCtorEq, false_imp_iff, true_and,
      Option.some.injEq, forall_eq']

theorem succ_ne_zero {n : UInt64} (h : n ≠ 0xffffffffffffffff) : n + 1 ≠ 0 := by
  intro h0
  have h1 := congrArg UInt64.toNat h0
  have h2 : n.toNat ≠ 0xffffffffffffffff := fun he => h (UInt64.toNat_inj.mp he)
  have h3 := n.toNat_lt
  rw [UInt64.toNat_add] at h1
  simp only [UInt64.reduceToNat] at h1
  omega

theorem toNat_succ {n : UInt64} (h : n ≠ 0xffffffffffffffff) : (n + 1).toNat = n.toNat + 1 := by
  have h2 : n.toNat ≠ 0xffffffffffffffff := fun he => h (UInt64.toNat_inj.mp he)
  have h3 := n.toNat_lt
  rw [UInt64.toNat_add]
  simp only [UInt64.reduceToNat]
  omega

/-- The numbering of a derived record passes the checks of a record. -/
theorem checkPredecessor_succ (h : p.generation ≠ 0xffffffffffffffff) :
    checkPredecessor (p.generation + 1) (.string p.digest) = .ok () := by
  have hne : ¬(p.generation + 1 == 1) = true := by
    intro he
    have h1 := congrArg UInt64.toNat (beq_iff_eq.mp he)
    have h2 : p.generation.toNat ≠ 0 := fun h0 => p.numbered (UInt64.toNat_inj.mp h0)
    rw [toNat_succ h] at h1
    simp only [UInt64.reduceToNat] at h1
    omega
  rw [checkPredecessor, if_neg hne]
  exact demand_eq_ok.mpr (hex_digest _)

/-- The body of an ownership, as the derivation writes it. -/
theorem Derives.sealed {request : InstallLeaseRequest} {holder : Value} {o : Ownership}
    (h : Derives previous request root holder revision previousHolder o) :
    sealed (.object (ByteMap.ofList [
      (ascii "schema", .string (ascii "usk.installation_lease_ownership.v1")),
      (ascii "install_id", .string request.installId),
      (ascii "operation", .string request.operation),
      (ascii "operation_id", .string request.operationId),
      (ascii "attempt_id", .string request.attemptId),
      (ascii "operation_context_sha256", .string request.operationContextSha256),
      (ascii "state_root_identity", root),
      (ascii "holder", holder),
      (ascii "generation", .unsigned o.generation),
      (ascii "expected_state_revision", .string revision),
      (ascii "status", .string (ascii "active")),
      (ascii "result_state_revision", .null),
      (ascii "predecessor_sha256", optionalDigest o.predecessorSha256)])) = .ok o.value := by
  rw [← o.sealed_body, Ownership.body, h.rooted, h.held, h.current, h.asked, h.active]
  rfl

/-- `derive_install_lease_ownership` after the record of `previous`. -/
theorem derive_eq_ok {request : InstallLeaseRequest} {holder : Value} {w : Value}
    (hroot : WellFormed root) (hholder : WellFormed holder) :
    deriveInstallLeaseOwnership (previous.map Ownership.value) request root holder revision
      previousHolder = .ok w ↔
    ∃ o, w = o.value ∧ Derives previous request root holder revision previousHolder o := by
  simp only [deriveInstallLeaseOwnership, bind_eq_ok, demand_eq_ok, beq_iff_eq, exists_const]
  constructor
  · rintro ⟨_, hid, _, hr, _, hh, _, hrev, rfl, ⟨generation, predecessor⟩, hpre, hsealed⟩
    rw [precede_value hroot] at hpre
    have hnumber : generation ≠ 0 ∧ predecessor = optionalDigest (previous.map Ownership.digest) ∧
        checkPredecessor generation predecessor = .ok () := by
      cases previous with
      | none =>
        obtain ⟨rfl, rfl⟩ := hpre.1 rfl
        exact ⟨by decide, rfl, rfl⟩
      | some p =>
        obtain ⟨hadmits, rfl, rfl⟩ := hpre.2 p rfl
        exact ⟨succ_ne_zero hadmits.unexhausted, rfl, checkPredecessor_succ hadmits.unexhausted⟩
    obtain ⟨hne, rfl, hlinked⟩ := hnumber
    let o : Ownership :=
      { installId := request.installId, operation := request.operation,
        operationId := request.operationId, attemptId := request.attemptId,
        operationContextSha256 := request.operationContextSha256, stateRootIdentity := root,
        holder, generation, expectedStateRevision := request.expectedStateRevision,
        status := .active, predecessorSha256 := previous.map Ownership.digest, identified := hid,
        rooted := ⟨hr, hroot⟩, held := ⟨hh, hholder⟩, numbered := hne, linked := hlinked,
        resulted := rfl }
    have hderives : Derives previous request root holder request.expectedStateRevision
        previousHolder o := by
      refine ⟨rfl, rfl, rfl, rfl, rfl, ?_, fun p hp => (hpre.2 p hp).1, fun p hp => ?_⟩
      · rintro rfl
        exact ⟨(hpre.1 rfl).1, rfl⟩
      · exact ⟨(hpre.2 p hp).2.1, congrArg (Option.map Ownership.digest) hp⟩
    refine ⟨o, ?_, hderives⟩
    rw [hderives.sealed] at hsealed
    exact (Except.ok.inj hsealed).symm
  · rintro ⟨o, rfl, h⟩
    have hid : requestIdentity request = .ok () := by
      rw [h.asked]
      exact o.identified
    have hrev : Lease.revision revision = .ok () := by
      have := o.identified
      simp only [requestIdentity, bind_eq_ok] at this
      obtain ⟨_, _, _, hr, -⟩ := this
      rw [h.current]
      exact hr
    have heq : request.expectedStateRevision = revision := by rw [h.current, h.asked]; rfl
    refine ⟨(), hid, (), h.rooted ▸ o.rooted.1, (), h.held ▸ o.held.1, (), hrev, heq,
      (o.generation, optionalDigest o.predecessorSha256), ?_, h.sealed⟩
    rw [precede_value hroot]
    refine ⟨fun hn => ?_, fun p hp => ⟨h.admitted p hp, (h.later p hp).1, ?_⟩⟩
    · rw [(h.first hn).2]
      exact ⟨(h.first hn).1, rfl⟩
    · rw [(h.later p hp).2]
      rfl

/-! ## Fencing -/

/-- The fence passes the current ownership to its own holder, and nothing else. -/
theorem fence_eq_ok {v current holder : Value} (hv : WellFormed v) (hcurrent : WellFormed current)
    (hroot : WellFormed root) (hholder : WellFormed holder) :
    requireInstallLeaseFence v current root holder = .ok u ↔
      ∃ o : Ownership, v = o.value ∧ current = o.value ∧ o.status = .active ∧
        root = o.stateRootIdentity ∧ holder = o.holder := by
  simp only [requireInstallLeaseFence, bind_eq_ok]
  constructor
  · rintro ⟨_, hrec, _, -, _, -, _, -, _, hstatus, _, hequal, r, hr, _, hr', j, hj, hj'⟩
    obtain ⟨o, rfl⟩ := exists_ownership hv hrec
    rw [demand_eq_ok, equal_iff o.wellFormed_value hcurrent] at hequal
    rw [o.get_value "state_root_identity" rfl] at hr
    rw [o.get_value "holder" rfl] at hj
    cases hr
    cases hj
    rw [demand_eq_ok, equal_iff o.rooted.2 hroot] at hr'
    rw [demand_eq_ok, equal_iff o.held.2 hholder] at hj'
    rw [demandString_value o "status" _ _ rfl, demand_eq_ok, beq_iff_eq] at hstatus
    exact ⟨o, rfl, hequal.symm, Status.name_eq_active.mp hstatus, hr'.symm, hj'.symm⟩
  · rintro ⟨o, rfl, rfl, hs, rfl, rfl⟩
    have hrec := o.requireInstallLeaseRecord_value
    refine ⟨(), hrec, (), hrec, (), o.rooted.1, (), o.held.1, (), ?_, (), ?_, _,
      o.get_value "state_root_identity" rfl, (), ?_, _, o.get_value "holder" rfl, ?_⟩
    · rw [demandString_value o "status" _ _ rfl, demand_eq_ok, beq_iff_eq]
      exact Status.name_eq_active.mpr hs
    · exact demand_eq_ok.mpr (beq_self_eq_true _)
    · exact demand_eq_ok.mpr (beq_self_eq_true _)
    · exact demand_eq_ok.mpr (beq_self_eq_true _)

/-! ## Finishing -/

/-- The status that finishing sets. -/
def finalStatus (revision : Bytes) (handoff : Bool) : Status :=
  if handoff then .handoff revision else .completed revision

theorem checkStatus_final (h : hex revision 64 = true) (handoff : Bool) :
    checkStatus (finalStatus revision handoff).name (finalStatus revision handoff).result =
      .ok () := by
  cases handoff <;> exact demand_eq_ok.mpr h

/-- An ownership with its operation completed or handed off. -/
def Ownership.finished (o : Ownership) (revision : Bytes) (handoff : Bool)
    (h : hex revision 64 = true) : Ownership :=
  { o with status := finalStatus revision handoff, resulted := checkStatus_final h handoff }

theorem find_assign {key : Bytes} {value : Value} : ∀ (o : Object) (k : Bytes),
    ByteMap.find (assign o key value) k =
      if k = key then (ByteMap.find o k).map (fun _ => value) else ByteMap.find o k
  | [], k => by simp [assign, ByteMap.find]
  | (j, v) :: rest, k => by
    have ih := @find_assign key value rest k
    rw [assign, List.map_cons, ← assign]
    by_cases hj : j = key
    · subst hj
      rw [if_pos rfl, ByteMap.find, ByteMap.find, ih]
      by_cases hk : k = j
      · simp [hk]
      · simp [hk, Ne.symm hk]
    · rw [if_neg hj, ByteMap.find, ByteMap.find, ih]
      by_cases hk : j = k
      · simp [hk, hk ▸ hj]
      · simp [hk]

theorem keys_assign {o : Object} {key : Bytes} :
    ByteMap.keys (assign o key value) = ByteMap.keys o := by
  rw [ByteMap.keys, ByteMap.keys, assign, List.map_map]
  refine List.map_congr_left fun m _ => ?_
  dsimp only [Function.comp]
  split
  · next h => exact h.symm
  · rfl

theorem sorted_assign {o : Object} {key : Bytes} (h : Sorted o) : Sorted (assign o key value) := by
  have hmap : (ByteMap.keys (assign o key value)).Pairwise (· < ·) := by
    rw [keys_assign]
    exact List.pairwise_map.mpr h
  exact List.pairwise_map.mp hmap

/-- Setting the two members and sealing again gives the record of the finished ownership. -/
theorem Ownership.sealed_finished (o : Ownership) (handoff : Bool) (h : hex revision 64 = true) :
    sealed (.object (assign (assign (ByteMap.ofList o.fields) (ascii "status")
      (.string (if handoff then ascii "handoff" else ascii "completed")))
      (ascii "result_state_revision") (.string revision))) =
      .ok (o.finished revision handoff h).value := by
  have hname : (finalStatus revision handoff).name =
      if handoff then ascii "handoff" else ascii "completed" := by
    cases handoff <;> rfl
  have hresult : (finalStatus revision handoff).result = .string revision := by
    cases handoff <;> rfl
  have hbody : ByteMap.erase (assign (assign (ByteMap.ofList o.fields) (ascii "status")
      (.string (if handoff then ascii "handoff" else ascii "completed")))
      (ascii "result_state_revision") (.string revision)) (ascii "ownership_sha256") =
      ByteMap.ofList (o.finished revision handoff h).body := by
    refine eq_ofList_of_members (ByteMap.sorted_erase (sorted_assign (sorted_assign
      (ByteMap.sorted_ofList _))) _) (Ownership.nodup_body _) ?_ ?_
    · intro k hk
      rw [mem_keys_erase, keys_assign, keys_assign, ByteMap.keys,
        ((ByteMap.ofList_perm o.nodup_fields).map _).mem_iff, Ownership.fields, List.map_append,
        List.mem_append] at hk
      exact hk.1.resolve_right fun hseal => hk.2 (List.mem_singleton.mp hseal)
    · simp only [Ownership.body, Ownership.finished, hname, hresult, List.forall_mem_cons,
        List.not_mem_nil, false_imp_iff, implies_true, and_true]
      refine ⟨?_, ?_, ?_, ?_, ?_, ?_, ?_, ?_, ?_, ?_, ?_, ?_, ?_⟩ <;>
      · rw [find_erase_of_ne (by decide), find_assign, find_assign,
          ByteMap.find_ofList o.nodup_fields]
        rfl
  rw [Ownership.value_eq_insert]
  change Except.ok _ = _
  rw [hbody]
  rfl

/-- `finish_install_lease_ownership` is for the holder of an active ownership. -/
theorem finish_eq_ok {v holder w : Value} {handoff : Bool} (hv : WellFormed v)
    (hroot : WellFormed root) (hholder : WellFormed holder) :
    finishInstallLeaseOwnership v root holder revision handoff = .ok w ↔
      ∃ (o : Ownership) (h : hex revision 64 = true), v = o.value ∧ o.status = .active ∧
        root = o.stateRootIdentity ∧ holder = o.holder ∧
        w = (o.finished revision handoff h).value := by
  simp only [finishInstallLeaseOwnership, bind_eq_ok, fence_eq_ok hv hv hroot hholder,
    revision_eq_ok, asObject_eq_ok]
  constructor
  · rintro ⟨_, ⟨o, rfl, -, hs, rfl, rfl⟩, _, hrev, obj, hobj, hw⟩
    cases hobj
    rw [o.sealed_finished handoff hrev] at hw
    exact ⟨o, hrev, rfl, hs, rfl, rfl, (Except.ok.inj hw).symm⟩
  · rintro ⟨o, hrev, rfl, hs, rfl, rfl, rfl⟩
    exact ⟨(), ⟨o, rfl, rfl, hs, rfl, rfl⟩, (), hrev, _, rfl, o.sealed_finished handoff hrev⟩

end Usk.Lease
