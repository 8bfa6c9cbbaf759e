import UniversalSetup.Lease.Protocol

/-!
# Runs of the lease protocol

Holders race for one slot: a call reads the current record and, if it succeeds, its result becomes
the current record. A run keeps every record that was ever current, the latest first, together with
the call that wrote it.
-/

namespace Usk.Lease

open Json

/-- A call by some holder, with what the holder observed. -/
inductive Call where
  | derive (request : InstallLeaseRequest) (root holder : Document) (revision : Bytes)
      (previousHolder : InstallLeasePreviousHolder)
  | finish (root holder : Document) (revision : Bytes) (handoff : Bool)

variable {e f : Call × Ownership}

/-- The record that replaces the current one. There is nothing to finish before the first record. -/
def Call.apply (current : Option Value) : Call → Result Value
  | .derive request root holder revision previousHolder =>
    deriveInstallLeaseOwnership current request root.1 holder.1 revision previousHolder
  | .finish root holder revision handoff =>
    match current with
    | none => .error installLeaseStale
    | some record => finishInstallLeaseOwnership record root.1 holder.1 revision handoff

/-- A record and the call that made it current. -/
structure Entry where
  call : Call
  record : Value

/-- The record that is current after a log. -/
def current (log : List Entry) : Option Value :=
  log.head?.map Entry.record

/-- A call that throws leaves the current record alone. -/
def step (log : List Entry) (call : Call) : List Entry :=
  match call.apply (current log) with
  | .ok record => ⟨call, record⟩ :: log
  | .error _ => log

def run (calls : List Call) : List Entry :=
  calls.foldl step []

/-! ## Legal logs -/

/-- The transitions between ownerships that the calls of a log make. -/
inductive Legal : List (Call × Ownership) → Prop
  | nil : Legal []
  | derive {log : List (Call × Ownership)} {request : InstallLeaseRequest} {root holder : Document}
      {revision : Bytes} {previousHolder : InstallLeasePreviousHolder} {o : Ownership} :
      Legal log →
      Derives (log.head?.map Prod.snd) request root.1 holder.1 revision previousHolder o →
      Legal ((.derive request root holder revision previousHolder, o) :: log)
  | finish {log : List (Call × Ownership)} {call : Call} {o : Ownership} {root holder : Document}
      {revision : Bytes} {handoff : Bool} (h : hex revision 64 = true) :
      Legal ((call, o) :: log) → o.status = .active → root.1 = o.stateRootIdentity →
      holder.1 = o.holder →
      Legal ((.finish root holder revision handoff, o.finished revision handoff h) ::
        (call, o) :: log)

/-- A logged transition with the document of its ownership. -/
def entry (e : Call × Ownership) : Entry :=
  ⟨e.1, e.2.value⟩

theorem current_map_entry (log : List (Call × Ownership)) :
    current (log.map entry) = (log.head?.map Prod.snd).map Ownership.value := by
  cases log <;> rfl

/-- One call on a legal log. -/
theorem legal_step {log : List (Call × Ownership)} (h : Legal log) (call : Call) :
    ∃ log', Legal log' ∧ step (log.map entry) call = log'.map entry := by
  rw [step, current_map_entry]
  split
  · next record hrecord =>
    cases call with
    | derive request root holder revision previousHolder =>
      obtain ⟨o, rfl, hderives⟩ := (derive_eq_ok root.2 holder.2).mp hrecord
      exact ⟨_, h.derive hderives, rfl⟩
    | finish root holder revision handoff =>
      cases log with
      | nil => cases hrecord
      | cons e log =>
        obtain ⟨call, o⟩ := e
        obtain ⟨o', hrev, ho, hs, hroot, hholder, rfl⟩ :=
          (finish_eq_ok o.wellFormed_value root.2 holder.2).mp hrecord
        cases Ownership.value_injective ho
        exact ⟨_, .finish hrev h hs hroot hholder, rfl⟩
  · exact ⟨log, h, rfl⟩

/-- Every run is a legal log, by induction over its calls. -/
theorem exists_legal (calls : List Call) : ∃ log, Legal log ∧ run calls = log.map entry := by
  suffices h : ∀ (calls : List Call) (log : List (Call × Ownership)), Legal log →
      ∃ log', Legal log' ∧ calls.foldl step (log.map entry) = log'.map entry from h calls [] .nil
  intro calls
  induction calls with
  | nil => exact fun log h => ⟨log, h, rfl⟩
  | cons call calls ih =>
    intro log h
    obtain ⟨next, hnext, hstep⟩ := legal_step h call
    rw [List.foldl_cons, hstep]
    exact ih next hnext

namespace Legal

theorem tail {log : List (Call × Ownership)} (h : Legal (e :: log)) : Legal log := by
  cases h with
  | derive h _ => exact h
  | finish _ h _ _ _ => exact h

theorem suffix : ∀ {later log : List (Call × Ownership)}, Legal (later ++ log) → Legal log
  | [], _, h => h
  | _ :: _, _, h => suffix (tail h)

/-- Generations never fall, and a record that is active is newer than all before it. -/
theorem generation {log : List (Call × Ownership)} (h : Legal log) :
    ∀ {e : Call × Ownership} {earlier : List (Call × Ownership)}, log = e :: earlier →
    ∀ f ∈ earlier, f.2.generation.toNat ≤ e.2.generation.toNat ∧
      (e.2.status = .active → f.2.generation.toNat < e.2.generation.toNat) := by
  induction h with
  | nil => intro e earlier he; cases he
  | @derive log request root holder revision previousHolder o hlog hd ih =>
    intro e earlier he f hf
    cases he
    cases log with
    | nil => cases hf
    | cons p rest =>
      have hadmits := hd.admitted p.2 rfl
      have hsucc := toNat_succ hadmits.unexhausted
      rw [← (hd.later p.2 rfl).1] at hsucc
      have hle : f.2.generation.toNat ≤ p.2.generation.toNat := by
        rcases List.mem_cons.mp hf with rfl | hf
        · exact Nat.le_refl _
        · exact (ih rfl f hf).1
      dsimp only
      exact ⟨by omega, fun _ => by omega⟩
  | @finish log call o root holder revision handoff hrev hlog hs hroot hholder ih =>
    intro e earlier he f hf
    cases he
    have hle : f.2.generation.toNat ≤ o.generation.toNat := by
      rcases List.mem_cons.mp hf with rfl | hf
      · exact Nat.le_refl _
      · exact (ih rfl f hf).1
    refine ⟨hle, fun ha => ?_⟩
    cases handoff <;> cases ha

/-- The record after an unfinished one belongs to the same operation. -/
theorem sameOperation {log : List (Call × Ownership)} (h : Legal (e :: f :: log))
    (hf : ∀ result, f.2.status ≠ .completed result) : f.2.SameOperation e.2 := by
  cases h with
  | derive _ hd =>
    have hc := (hd.admitted f.2 rfl).continues hf
    rw [hd.asked] at hc
    exact ⟨hc.operation, hc.operationId, hc.context⟩
  | finish => exact ⟨rfl, rfl, rfl⟩

/-- An active record is replaced by an active one only in place of a holder that is gone. -/
theorem takeover {log : List (Call × Ownership)} (h : Legal (e :: f :: log))
    (he : e.2.status = .active) (hf : f.2.status = .active) :
    ∃ request root holder revision previousHolder,
      e.1 = .derive request root holder revision previousHolder ∧
      (previousHolder = .ended ∨ previousHolder = .identityReused) := by
  cases h with
  | derive _ hd =>
    have hc := (hd.admitted f.2 rfl).continues fun result hr => by rw [hf] at hr; cases hr
    exact ⟨_, _, _, _, _, rfl, hc.ended hf⟩
  | @finish _ _ _ _ _ _ handoff =>
    cases handoff <;> cases he

/-- From an unfinished record on, everything up to its completion is the same operation. -/
theorem sameOperation_until : ∀ {mid log : List (Call × Ownership)} {e f : Call × Ownership},
    Legal (e :: (mid ++ f :: log)) →
    (∀ g ∈ mid ++ [f], ∀ result, g.2.status ≠ .completed result) → f.2.SameOperation e.2
  | [], _, _, _, h, hn => h.sameOperation (hn _ (List.mem_singleton_self _))
  | g :: mid, log, e, f, h, hn => by
    have hge := h.sameOperation (hn g List.mem_cons_self)
    have hfg := sameOperation_until h.tail fun x hx => hn x (List.mem_cons_of_mem g hx)
    exact ⟨hfg.operation.trans hge.operation, hfg.operationId.trans hge.operationId,
      hfg.context.trans hge.context⟩

end Legal

/-! ## Records in the log -/

/-- The status of a record. -/
def HasStatus (record : Value) (status : String) : Prop :=
  record.get "status" = .ok (.string (ascii status))

/-- Records of one operation. -/
structure SameOperation (v w : Value) : Prop where
  operation : v.get "operation" = w.get "operation"
  operationId : v.get "operation_id" = w.get "operation_id"
  context : v.get "operation_context_sha256" = w.get "operation_context_sha256"

def generationOf (record : Value) : Result UInt64 := do
  (← record.get "generation").asUnsigned

def Call.isDerivation : Call → Bool
  | .derive .. => true
  | .finish .. => false

/-- What a log of records guarantees to the holders, the latest record first. -/
structure Fenced (log : List Entry) : Prop where
  /-- Every record that was ever current is a valid record. -/
  accepted : ∀ e ∈ log, requireInstallLeaseRecord e.record = .ok ()
  /-- A derivation has a higher generation than everything before it. -/
  increasing : ∀ later e earlier, log = later ++ e :: earlier → e.call.isDerivation = true →
    ∀ f ∈ earlier, ∃ g h, generationOf f.record = .ok g ∧ generationOf e.record = .ok h ∧ g < h
  /-- One ownership at most passes the fence. -/
  exclusive : ∀ record, current log = some record → ∀ v w root holder root' holder' : Document,
    requireInstallLeaseFence v.1 record root.1 holder.1 = .ok () →
    requireInstallLeaseFence w.1 record root'.1 holder'.1 = .ok () → v = w
  /-- A record that has been replaced never passes again. -/
  replaced : ∀ e earlier, log = e :: earlier → ∀ f ∈ earlier, ∀ root holder : Document,
    requireInstallLeaseFence f.record e.record root.1 holder.1 ≠ .ok ()
  /-- Up to its completion an operation keeps its name, its identifier and its context. -/
  operation : ∀ later e mid f earlier, log = later ++ e :: (mid ++ f :: earlier) →
    (∀ g ∈ mid ++ [f], ¬HasStatus g.record "completed") → SameOperation f.record e.record
  /-- An active record follows an active one only when the holder was reported to be gone. -/
  takeover : ∀ later e f earlier, log = later ++ e :: f :: earlier →
    HasStatus e.record "active" → HasStatus f.record "active" →
    ∃ request root holder revision previousHolder,
      e.call = .derive request root holder revision previousHolder ∧
      (previousHolder = .ended ∨ previousHolder = .identityReused)

theorem hasStatus_value {o : Ownership} {status : String} :
    HasStatus o.value status ↔ o.status.name = ascii status := by
  rw [HasStatus, o.get_value "status" rfl]
  simp

theorem generationOf_value (o : Ownership) : generationOf o.value = .ok o.generation := by
  rw [generationOf, o.get_value "generation" rfl]
  rfl

theorem sameOperation_value {o p : Ownership} (h : o.SameOperation p) :
    SameOperation o.value p.value := by
  constructor
  · rw [o.get_value "operation" rfl, p.get_value "operation" rfl, h.operation]
  · rw [o.get_value "operation_id" rfl, p.get_value "operation_id" rfl, h.operationId]
  · rw [o.get_value "operation_context_sha256" rfl, p.get_value "operation_context_sha256" rfl,
      h.context]

namespace Legal

variable {log : List (Call × Ownership)}

theorem increasing (h : Legal log) {later earlier : List (Call × Ownership)}
    (hlog : log = later ++ e :: earlier) (hd : e.1.isDerivation = true) (hf : f ∈ earlier) :
    f.2.generation < e.2.generation := by
  subst hlog
  have hsuffix := h.suffix
  refine UInt64.lt_iff_toNat_lt.mpr ((hsuffix.generation rfl f hf).2 ?_)
  cases hsuffix with
  | derive _ hd => exact hd.active
  | finish => cases hd

theorem replaced (h : Legal (e :: log)) (hf : f ∈ log) (ha : e.2.status = .active) :
    f.2.value ≠ e.2.value := by
  intro he
  have hgen := (h.generation rfl f hf).2 ha
  rw [Ownership.value_injective he] at hgen
  exact absurd hgen (Nat.lt_irrefl _)

end Legal

/-- Every run is fenced. -/
theorem lease_runs_fenced (calls : List Call) : Fenced (run calls) := by
  obtain ⟨log, h, hrun⟩ := exists_legal calls
  rw [hrun]
  constructor
  case accepted =>
    intro e he
    obtain ⟨x, -, rfl⟩ := List.mem_map.mp he
    exact x.2.requireInstallLeaseRecord_value
  case increasing =>
    intro later e earlier hlog hd f hf
    obtain ⟨l, r, rfl, rfl, hr⟩ := List.map_eq_append_iff.mp hlog
    obtain ⟨x, rest, rfl, rfl, rfl⟩ := List.map_eq_cons_iff.mp hr
    obtain ⟨y, hy, rfl⟩ := List.mem_map.mp hf
    exact ⟨_, _, generationOf_value y.2, generationOf_value x.2, h.increasing rfl hd hy⟩
  case exclusive =>
    intro record hrecord v w root holder root' holder' hv hw
    have hwell : WellFormed record := by
      rw [current_map_entry, Option.map_eq_some_iff] at hrecord
      obtain ⟨o, -, rfl⟩ := hrecord
      exact o.wellFormed_value
    obtain ⟨o, hvo, hro, -⟩ := (fence_eq_ok v.2 hwell root.2 holder.2).mp hv
    obtain ⟨o', hwo, hro', -⟩ := (fence_eq_ok w.2 hwell root'.2 holder'.2).mp hw
    exact Subtype.ext (hvo.trans (hro.symm.trans (hro'.trans hwo.symm)))
  case replaced =>
    intro e earlier hlog f hf root holder hfence
    obtain ⟨x, rest, rfl, rfl, rfl⟩ := List.map_eq_cons_iff.mp hlog
    obtain ⟨y, hy, rfl⟩ := List.mem_map.mp hf
    obtain ⟨o, hyo, hxo, ha, -⟩ := (fence_eq_ok y.2.wellFormed_value x.2.wellFormed_value root.2
      holder.2).mp hfence
    rw [← Ownership.value_injective hxo] at ha
    exact h.replaced hy ha (hyo.trans hxo.symm)
  case operation =>
    intro later e mid f earlier hlog hn
    obtain ⟨l, r, rfl, rfl, hr⟩ := List.map_eq_append_iff.mp hlog
    obtain ⟨x, s, rfl, rfl, hs⟩ := List.map_eq_cons_iff.mp hr
    obtain ⟨m, t, rfl, rfl, ht⟩ := List.map_eq_append_iff.mp hs
    obtain ⟨y, rest, rfl, rfl, rfl⟩ := List.map_eq_cons_iff.mp ht
    refine sameOperation_value (h.suffix.sameOperation_until fun g hg result hresult => ?_)
    refine hn (entry g) ?_ (hasStatus_value.mpr (by rw [hresult]; rfl))
    have hmem := List.mem_map_of_mem (f := entry) hg
    rwa [List.map_append] at hmem
  case takeover =>
    intro later e f earlier hlog he hf
    obtain ⟨l, r, rfl, rfl, hr⟩ := List.map_eq_append_iff.mp hlog
    obtain ⟨x, s, rfl, rfl, hs⟩ := List.map_eq_cons_iff.mp hr
    obtain ⟨y, rest, rfl, rfl, rfl⟩ := List.map_eq_cons_iff.mp hs
    exact h.suffix.takeover (Status.name_eq_active.mp (hasStatus_value.mp he))
      (Status.name_eq_active.mp (hasStatus_value.mp hf))

end Usk.Lease
