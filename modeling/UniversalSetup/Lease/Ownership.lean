import UniversalSetup.Lease.Record

/-!
# Ownerships

The records that `require_install_lease_record` accepts are the documents of ownerships: an
ownership is the data of a record together with the checks it passes. Deriving and finishing are
then transitions between ownerships, and the sealed documents only carry them.
-/

namespace Usk.Lease

open Json

variable {v : Value}

/-- The status of a record. A finished record names the state revision it left. -/
inductive Status where
  | active
  | completed (result : Bytes)
  | handoff (result : Bytes)
deriving DecidableEq

variable {s : Status}

namespace Status

def name : Status → Bytes
  | active => ascii "active"
  | completed _ => ascii "completed"
  | handoff _ => ascii "handoff"

/-- `result_state_revision`. -/
def result : Status → Value
  | active => .null
  | completed revision => .string revision
  | handoff revision => .string revision

theorem name_eq_active : s.name = ascii "active" ↔ s = active := by
  cases s <;> simp [name] <;> decide

theorem name_eq_completed : s.name = ascii "completed" ↔ ∃ revision, s = completed revision := by
  cases s <;> simp [name] <;> decide

theorem name_eq_handoff : s.name = ascii "handoff" ↔ ∃ revision, s = handoff revision := by
  cases s <;> simp [name] <;> decide

end Status

/-- `null`, or a digest. -/
def optionalDigest : Option Bytes → Value
  | none => .null
  | some digest => .string digest

/-- The data of a record and the checks that it passes. -/
structure Ownership where
  installId : Bytes
  operation : Bytes
  operationId : Bytes
  attemptId : Bytes
  operationContextSha256 : Bytes
  stateRootIdentity : Value
  holder : Value
  generation : UInt64
  expectedStateRevision : Bytes
  status : Status
  predecessorSha256 : Option Bytes
  identified : requestIdentity ⟨installId, operation, operationId, attemptId,
    expectedStateRevision, false, operationContextSha256⟩ = .ok ()
  rooted : rootIdentity stateRootIdentity = .ok () ∧ WellFormed stateRootIdentity
  held : holderIdentity holder = .ok () ∧ WellFormed holder
  numbered : generation ≠ 0
  linked : checkPredecessor generation (optionalDigest predecessorSha256) = .ok ()
  resulted : checkStatus status.name status.result = .ok ()

namespace Ownership

variable (o : Ownership)

/-- The members that the seal covers. -/
def body : List (Bytes × Value) :=
  [(ascii "schema", .string (ascii "usk.installation_lease_ownership.v1")),
    (ascii "install_id", .string o.installId),
    (ascii "operation", .string o.operation),
    (ascii "operation_id", .string o.operationId),
    (ascii "attempt_id", .string o.attemptId),
    (ascii "operation_context_sha256", .string o.operationContextSha256),
    (ascii "state_root_identity", o.stateRootIdentity),
    (ascii "holder", o.holder),
    (ascii "generation", .unsigned o.generation),
    (ascii "expected_state_revision", .string o.expectedStateRevision),
    (ascii "status", .string o.status.name),
    (ascii "result_state_revision", o.status.result),
    (ascii "predecessor_sha256", optionalDigest o.predecessorSha256)]

/-- `ownership_sha256`. -/
def digest : Bytes :=
  sha256Canonical (.object (ByteMap.ofList o.body))

/-- All members of the record. -/
def fields : List (Bytes × Value) :=
  o.body ++ [(ascii "ownership_sha256", .string o.digest)]

/-- The record. -/
def value : Value :=
  .object (ByteMap.ofList o.fields)

theorem keys_fields : ByteMap.keys o.fields = ["schema", "install_id", "operation", "operation_id",
    "attempt_id", "operation_context_sha256", "state_root_identity", "holder", "generation",
    "expected_state_revision", "status", "result_state_revision", "predecessor_sha256",
    "ownership_sha256"].map ascii :=
  rfl

theorem nodup_fields : (ByteMap.keys o.fields).Nodup := by
  rw [keys_fields]
  decide

theorem nodup_body : (ByteMap.keys o.body).Nodup := by
  have h := o.nodup_fields
  rw [fields, ByteMap.keys, List.map_append] at h
  exact (List.nodup_append.mp h).1

theorem perm_recordNames : (ByteMap.keys o.fields).Perm (recordNames.map ascii) := by
  rw [keys_fields]
  decide

/-- A member of a record is found again. -/
theorem get_value (key : String) {w : Value} (h : ByteMap.find o.fields (ascii key) = some w) :
    o.value.get key = .ok w :=
  get_ofList o.nodup_fields h

theorem getString_value (key : String) {s : Bytes}
    (h : ByteMap.find o.fields (ascii key) = some (.string s)) : o.value.getString key = .ok s :=
  getString_eq_ok.mpr (o.get_value key h)

theorem wellFormed_result (s : Status) : WellFormed s.result := by
  cases s <;> trivial

theorem wellFormed_optionalDigest (d : Option Bytes) : WellFormed (optionalDigest d) := by
  cases d <;> trivial

theorem wellFormed_body : ∀ m ∈ o.body, WellFormed m.2 := by
  simp only [body, List.forall_mem_cons, List.not_mem_nil, false_imp_iff, implies_true, and_true]
  exact ⟨trivial, trivial, trivial, trivial, trivial, trivial, o.rooted.2, o.held.2, trivial,
    trivial, trivial, wellFormed_result _, wellFormed_optionalDigest _⟩

theorem wellFormed_value : WellFormed o.value := by
  refine wellFormed_ofList o.nodup_fields fun m hm => ?_
  rcases List.mem_append.mp hm with hm | hm
  · exact o.wellFormed_body m hm
  · cases List.mem_singleton.mp hm
    trivial

theorem value_eq_insert : o.value = .object (ByteMap.insert (ByteMap.ofList o.body)
    (ascii "ownership_sha256") (.string o.digest)) := by
  rw [value, fields, ofList_concat]

theorem find_body_seal : ByteMap.find (ByteMap.ofList o.body) (ascii "ownership_sha256") =
    none := by
  rw [ByteMap.find_ofList o.nodup_body, ByteMap.find_eq_none]
  exact of_decide_eq_true rfl

/-- Sealing a record again changes nothing. -/
theorem sealed_value : sealed o.value = .ok o.value := by
  rw [sealed, value_eq_insert]
  change Except.ok _ = _
  rw [ByteMap.erase_insert o.find_body_seal]
  rfl

/-- Sealing the body of an ownership gives its record. -/
theorem sealed_body : sealed (.object (ByteMap.ofList o.body)) = .ok o.value := by
  have herase : ByteMap.erase (ByteMap.ofList o.body) (ascii "ownership_sha256") =
      ByteMap.ofList o.body := by
    refine List.filter_eq_self.mpr fun m hm => decide_eq_true fun he => ?_
    have hnone := ByteMap.find_eq_none.mp o.find_body_seal
    exact hnone (he ▸ List.mem_map_of_mem hm)
  rw [value_eq_insert]
  change Except.ok _ = _
  rw [herase]
  rfl

end Ownership

/-! ## Accepted records are the records of ownerships -/

theorem members_eq_ok {names : List String} {u : Unit} (hw : WellFormed v) :
    members v names = .ok u ↔ ∃ o, v = .object o ∧ (ByteMap.keys o).Perm (names.map ascii) := by
  simp only [members, bind_eq_ok, asObject_eq_ok, demand_eq_ok, beq_iff_eq, List.all_eq_true,
    List.contains_iff_mem]
  constructor
  · rintro ⟨o, rfl, _, hlen, hmem⟩
    have hkeys := ByteMap.nodup_of_sorted (wellFormed_object.mp hw).1
    refine ⟨o, rfl, (hkeys.subperm hmem).perm_of_length_le ?_⟩
    rw [List.length_map, ByteMap.keys, List.length_map, hlen]
  · rintro ⟨o, rfl, hperm⟩
    refine ⟨o, rfl, (), ?_, fun k hk => hperm.mem_iff.mp hk⟩
    simpa [ByteMap.keys] using hperm.length_eq

theorem equal_iff {w : Value} (hv : WellFormed v) (hw : WellFormed w) :
    equal v w = true ↔ v = w := by
  rw [equal, beq_iff_eq]
  exact ⟨canonical_injective hv hw, fun h => by rw [h]⟩

theorem hex_digest (v : Value) : hex (sha256Canonical v) 64 = true :=
  validSha256_sha256 _

theorem revision_eq_ok {value : Bytes} {u : Unit} :
    revision value = .ok u ↔ hex value 64 = true := by
  rw [revision, demand_eq_ok]

namespace Ownership

/-- The record of an ownership is accepted. -/
theorem requireInstallLeaseRecord_value (o : Ownership) :
    requireInstallLeaseRecord o.value = .ok () := by
  have hmembers : members o.value recordNames = .ok () := by
    rw [members_eq_ok o.wellFormed_value]
    exact ⟨_, rfl, ((ByteMap.ofList_perm o.nodup_fields).map _).trans o.perm_recordNames⟩
  have hrequest : recordRequest o.value = .ok ⟨o.installId, o.operation, o.operationId,
      o.attemptId, o.expectedStateRevision, false, o.operationContextSha256⟩ := by
    rw [recordRequest, o.getString_value "install_id" rfl, o.getString_value "operation" rfl,
      o.getString_value "operation_id" rfl, o.getString_value "attempt_id" rfl,
      o.getString_value "expected_state_revision" rfl,
      o.getString_value "operation_context_sha256" rfl]
    rfl
  have hnumbered : (!(o.generation == 0)) = true := by simpa using o.numbered
  have hequal : equal o.value o.value = true :=
    (equal_iff o.wellFormed_value o.wellFormed_value).mpr rfl
  simp only [requireInstallLeaseRecord, bind_eq_ok, demandString_eq_ok, demand_eq_ok]
  exact ⟨(), hmembers, (), ⟨_, o.get_value "schema" rfl, beq_self_eq_true _⟩, _, hrequest, (),
    o.identified, _, o.get_value "state_root_identity" rfl, (), o.rooted.1, _,
    o.get_value "holder" rfl, (), o.held.1, _, o.get_value "generation" rfl, _, rfl, (),
    hnumbered, _, o.get_value "predecessor_sha256" rfl, (), o.linked, _,
    o.getString_value "status" rfl, _, o.get_value "result_state_revision" rfl, (), o.resulted, _,
    o.getString_value "ownership_sha256" rfl, (), revision_eq_ok.mpr (hex_digest _), _,
    o.sealed_value, hequal⟩

end Ownership

theorem exists_status {text : Bytes} {result : Value} (h : checkStatus text result = .ok ()) :
    ∃ s : Status, s.name = text ∧ s.result = result := by
  unfold checkStatus at h
  split at h
  · next ha =>
    rw [demand_eq_ok] at h
    refine ⟨.active, (beq_iff_eq.mp ha).symm, ?_⟩
    cases result <;> first | rfl | cases h
  · split at h
    · next hf =>
      rw [bind_eq_ok] at h
      obtain ⟨r, hr, -⟩ := h
      rw [asString_eq_ok] at hr
      subst hr
      rcases (Bool.or_eq_true _ _).mp hf with hc | hc
      · exact ⟨.completed r, (beq_iff_eq.mp hc).symm, rfl⟩
      · exact ⟨.handoff r, (beq_iff_eq.mp hc).symm, rfl⟩
    · cases h

theorem exists_predecessor {generation : UInt64} {predecessor : Value}
    (h : checkPredecessor generation predecessor = .ok ()) :
    ∃ p : Option Bytes, optionalDigest p = predecessor := by
  unfold checkPredecessor at h
  split at h
  · rw [demand_eq_ok] at h
    refine ⟨none, ?_⟩
    cases predecessor <;> first | rfl | cases h
  · rw [bind_eq_ok] at h
    obtain ⟨p, hp, -⟩ := h
    rw [asString_eq_ok] at hp
    exact ⟨some p, hp.symm⟩

/-- Every accepted record is the record of an ownership. -/
theorem exists_ownership (hw : WellFormed v) (h : requireInstallLeaseRecord v = .ok ()) :
    ∃ o : Ownership, v = o.value := by
  simp only [requireInstallLeaseRecord, bind_eq_ok, demandString_eq_ok, demand_eq_ok,
    recordRequest, getString_eq_ok, asUnsigned_eq_ok, beq_iff_eq, pure, Except.pure,
    Except.ok.injEq] at h
  obtain ⟨_, hmembers, _, ⟨schema, hschema, rfl⟩, _, ⟨installId, hinstall, operation, hoperation,
    operationId, hoperationId, attemptId, hattempt, expected, hexpected, context, hcontext, rfl⟩,
    _, hidentity, root, hroot, _, hrooted, holder, hholder, _, hheld, _, hgen, generation, rfl, _,
    hnumbered, predecessor, hpred, _, hlinked, statusText, hstatus, result, hresult, _, hresulted,
    _, _, _, _, w, hsealed, hequal⟩ := h
  obtain ⟨obj, rfl, hperm⟩ := (members_eq_ok hw).mp hmembers
  obtain ⟨status, rfl, rfl⟩ := exists_status hresulted
  obtain ⟨p, rfl⟩ := exists_predecessor hlinked
  let o : Ownership :=
    { installId, operation, operationId, attemptId, operationContextSha256 := context,
      stateRootIdentity := root, holder, generation, expectedStateRevision := expected, status,
      predecessorSha256 := p, identified := hidentity,
      rooted := ⟨hrooted, wellFormed_get hw hroot⟩, held := ⟨hheld, wellFormed_get hw hholder⟩,
      numbered := by simpa using hnumbered, linked := hlinked, resulted := hresulted }
  have hsorted := (wellFormed_object.mp hw).1
  -- the record without its seal has exactly the members of the body
  have hbody : ByteMap.erase obj (ascii "ownership_sha256") = ByteMap.ofList o.body := by
    refine eq_ofList_of_members (ByteMap.sorted_erase hsorted _) o.nodup_body ?_ ?_
    · intro k hk
      rw [mem_keys_erase, hperm.mem_iff, ← o.perm_recordNames.mem_iff] at hk
      rw [Ownership.fields, ByteMap.keys, List.map_append, List.mem_append] at hk
      exact hk.1.resolve_right fun hseal => hk.2 (List.mem_singleton.mp hseal)
    · simp only [o, Ownership.body, List.forall_mem_cons, List.not_mem_nil, false_imp_iff,
        implies_true, and_true]
      have hfind : ∀ {key : String} {w : Value}, (Value.object obj).get key = .ok w →
          ascii key ≠ ascii "ownership_sha256" → ByteMap.find (ByteMap.erase obj
            (ascii "ownership_sha256")) (ascii key) = some w := by
        intro key w hget hne
        rw [find_erase_of_ne hne, ← get_object]
        exact hget
      exact ⟨hfind hschema (by decide), hfind hinstall (by decide), hfind hoperation (by decide),
        hfind hoperationId (by decide), hfind hattempt (by decide), hfind hcontext (by decide),
        hfind hroot (by decide), hfind hholder (by decide), hfind hgen (by decide),
        hfind hexpected (by decide), hfind hstatus (by decide), hfind hresult (by decide),
        hfind hpred (by decide)⟩
  have hw' : w = o.value := by
    have hunsealed : sealed (.object obj) = .ok (.object (ByteMap.insert (ByteMap.erase obj
        (ascii "ownership_sha256")) (ascii "ownership_sha256") (.string (sha256Canonical
          (.object (ByteMap.erase obj (ascii "ownership_sha256"))))))) := rfl
    rw [hsealed, hbody] at hunsealed
    rw [o.value_eq_insert]
    exact Except.ok.inj hunsealed
  subst hw'
  exact ⟨o, (equal_iff hw o.wellFormed_value).mp hequal⟩

theorem status_eq {t : Status} (hname : s.name = t.name) (hresult : s.result = t.result) :
    s = t := by
  cases t with
  | active => exact Status.name_eq_active.mp hname
  | completed r =>
    obtain ⟨r', rfl⟩ := Status.name_eq_completed.mp hname
    rw [Value.string.inj hresult]
  | handoff r =>
    obtain ⟨r', rfl⟩ := Status.name_eq_handoff.mp hname
    rw [Value.string.inj hresult]

theorem optionalDigest_injective {p q : Option Bytes} (h : optionalDigest p = optionalDigest q) :
    p = q := by
  cases p <;> cases q <;> simp_all [optionalDigest]

/-- A record belongs to one ownership. -/
theorem Ownership.value_injective {o p : Ownership} (h : o.value = p.value) : o = p := by
  have hget : ∀ (key : String) {v w : Value}, o.value.get key = .ok v → p.value.get key = .ok w →
      v = w := by
    intro key v w hv hw
    rw [h, hw] at hv
    exact (Except.ok.inj hv).symm
  have h1 := hget "install_id" (o.get_value _ rfl) (p.get_value _ rfl)
  have h2 := hget "operation" (o.get_value _ rfl) (p.get_value _ rfl)
  have h3 := hget "operation_id" (o.get_value _ rfl) (p.get_value _ rfl)
  have h4 := hget "attempt_id" (o.get_value _ rfl) (p.get_value _ rfl)
  have h5 := hget "operation_context_sha256" (o.get_value _ rfl) (p.get_value _ rfl)
  have h6 := hget "state_root_identity" (o.get_value _ rfl) (p.get_value _ rfl)
  have h7 := hget "holder" (o.get_value _ rfl) (p.get_value _ rfl)
  have h8 := hget "generation" (o.get_value _ rfl) (p.get_value _ rfl)
  have h9 := hget "expected_state_revision" (o.get_value _ rfl) (p.get_value _ rfl)
  have h10 := hget "status" (o.get_value _ rfl) (p.get_value _ rfl)
  have h11 := hget "result_state_revision" (o.get_value _ rfl) (p.get_value _ rfl)
  have h12 := hget "predecessor_sha256" (o.get_value _ rfl) (p.get_value _ rfl)
  have hstatus := status_eq (Value.string.inj h10) h11
  have hpred := optionalDigest_injective h12
  cases o
  cases p
  cases Value.string.inj h1
  cases Value.string.inj h2
  cases Value.string.inj h3
  cases Value.string.inj h4
  cases Value.string.inj h5
  cases h6
  cases h7
  cases Value.unsigned.inj h8
  cases Value.string.inj h9
  cases hstatus
  cases hpred
  rfl

end Usk.Lease
