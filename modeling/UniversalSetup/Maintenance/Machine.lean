import UniversalSetup.Maintenance.Reader

/-!
# The journal as a machine over records

What a record says is a `Record`; what the reader makes of it is one step of a machine whose inputs
are the phases of records. `consumeRecord_eq_ok` takes the reader apart into these two layers: a
record is consumed exactly when its text decodes, it links to the chain read so far and the machine
accepts its phase. Everything about histories is proved over the machine.
-/

namespace Usk.Maintenance

open Json Transaction

/-- What one record adds to the history. -/
inductive Phase where
  | context (sourceContext directoryIdentity : Bytes)
  | intent (kind : EffectKind) (effect : Value)
  | complete (intentSequence : Nat) (kind : EffectKind) (outcome resultDigest : Bytes)
  | closed

/-- A record with its place in the chain. -/
structure Record where
  sequence : Nat
  transactionId : Bytes
  sourceDigest : Bytes
  previous : Option Bytes
  digest : Bytes
  phase : Phase

/-- The phase that a pair of `phase` and `details` spells. -/
def Phase.ofFields (phase : Bytes) (details : Value) : Result Phase :=
  if phase = ascii "context" then do
    fields details ["source_context", "directory_identity"]
    pure (.context (← details.getString "source_context")
      (← details.getString "directory_identity"))
  else if phase = ascii "intent" then do
    fields details ["kind", "effect"]
    pure (.intent (← kindOf (← details.getString "kind")) (← details.get "effect"))
  else if phase = ascii "complete" then do
    fields details ["intent_sequence", "kind", "outcome", "result_digest"]
    let intentSequence ← (← details.get "intent_sequence").asUnsigned
    pure (.complete intentSequence.toNat (← kindOf (← details.getString "kind"))
      (← details.getString "outcome")
      (← RecordReader.optionalString (← details.get "result_digest")))
  else if phase = ascii "sealed" then do
    demand details.isNull "maintenance journal sealed with an unresolved effect"
    pure .closed
  else .error "maintenance journal phase is invalid"

/-- The spelling of a phase. -/
def Phase.text : Phase → Bytes
  | .context .. => ascii "context"
  | .intent .. => ascii "intent"
  | .complete .. => ascii "complete"
  | .closed => ascii "sealed"

/-- The predecessor named by a record. -/
def previousOf (v : Value) : Result (Option Bytes) :=
  if v.isNull then .ok none else some <$> v.asString

/-- The record that a decoded value spells. -/
def recordOf (value : Value) : Result Record := do
  let sequence ← (← value.get "sequence").asUnsigned
  let transactionId ← value.getString "transaction_id"
  let sourceDigest ← value.getString "source_digest"
  let previous ← previousOf (← value.get "previous_digest")
  let phase ← value.getString "phase"
  let details ← value.get "details"
  let phase ← Phase.ofFields phase details
  let digest ← value.getString "digest"
  pure { sequence := sequence.toNat, transactionId, sourceDigest, previous, digest, phase }

/-- A text that `decode_record_text` accepts by itself, and the value it spells. -/
structure Decodes (text : Bytes) (value : Value) : Prop where
  bounded : text.length ≤ maximumRecordBytes
  parsed : parse text recordLimits = .ok value
  keys : fields value ["schema", "sequence", "transaction_id", "source_digest", "phase", "details",
    "previous_digest", "digest"] = .ok ()
  spelled : canonical value ++ [0x0a] = text
  hashed : ∃ o, value = .object o ∧
    value.getString "digest" = .ok (sha256Canonical (recordBody o))
  schema : value.getString "schema" = .ok (ascii "usk.maintenance_effect_record.v1")

namespace RecordReader

/-- The step of the machine on a phase. -/
def advance (cwd : Path) (r : RecordReader) : Phase → Option RecordReader
  | .context sourceContext directoryIdentity =>
    if r.result.nextSequence = 0 ∧ directoryIdentity = r.directoryIdentity ∧
        (validateContext cwd r.spec sourceContext).toBool = true ∧
        (contextDigest sourceContext).toOption = some r.expectedSourceDigest then
      some { r with result := { r.result with
        sourceContext, sourceDigest := r.expectedSourceDigest } }
    else none
  | .intent kind effect =>
    if r.result.nextSequence ≠ 0 ∧ r.result.pendingKind = none ∧
        (validateEffect r.spec.operation kind.name effect).toBool = true then
      some { r with
        result := { r.result with pendingKind := some kind, pendingDetails := effect }
        pendingSequence := r.result.nextSequence }
    else none
  | .complete intentSequence kind outcome resultDigest =>
    if r.result.nextSequence ≠ 0 ∧ r.result.pendingKind = some kind ∧
        intentSequence = r.pendingSequence ∧
        (validateCompletion kind outcome resultDigest).toBool = true then
      some { r with result := { r.result with
        pendingKind := none
        pendingDetails := .null
        completedEffects := r.result.completedEffects + 1
        completed := if r.retainCompleted then r.result.completed ++
            [{ intentSequence := r.pendingSequence, kind, details := r.result.pendingDetails,
               outcome, resultDigest }]
          else r.result.completed } }
    else none
  | .closed =>
    if r.result.nextSequence ≠ 0 ∧ r.result.pendingKind = none then
      some { r with result := { r.result with isSealed := true } }
    else none

/-- A record that continues the chain read so far. -/
structure Links (r : RecordReader) (recordName : Bytes) (rec : Record) : Prop where
  room : r.result.nextSequence < r.recordCount
  named : recordName = filename r.result.nextSequence
  numbered : rec.sequence = r.result.nextSequence
  transaction : rec.transactionId = r.spec.transactionId
  source : rec.sourceDigest = r.expectedSourceDigest
  unsealed : r.result.isSealed = false
  previous : rec.previous =
    if r.result.nextSequence = 0 then none else some r.result.journalDigest

/-- The reader after a record of this digest and length. -/
def accept (r : RecordReader) (journalDigest : Bytes) : RecordReader :=
  { r with result := { r.result with
    journalDigest, nextSequence := r.result.nextSequence + 1 } }

end RecordReader

/-! ## The reader is the machine behind a decoder -/

theorem toBool_eq_true {α : Type} {x : Result α} : x.toBool = true ↔ ∃ a, x = .ok a := by
  cases x <;> simp [Except.toBool]

theorem Phase.ofFields_text {phase : Bytes} {details : Value} {p : Phase}
    (h : Phase.ofFields phase details = .ok p) : phase = p.text := by
  unfold Phase.ofFields at h
  split at h
  · next hp =>
    simp only [bind_eq_ok, pure, Except.pure, Except.ok.injEq] at h
    obtain ⟨_, -, _, -, _, -, rfl⟩ := h
    exact hp
  split at h
  · next hp =>
    simp only [bind_eq_ok, pure, Except.pure, Except.ok.injEq] at h
    obtain ⟨_, -, _, -, _, -, _, -, rfl⟩ := h
    exact hp
  split at h
  · next hp =>
    simp only [bind_eq_ok, pure, Except.pure, Except.ok.injEq] at h
    obtain ⟨_, -, _, -, _, -, _, -, _, -, _, -, _, -, _, -, rfl⟩ := h
    exact hp
  split at h
  · next hp =>
    simp only [bind_eq_ok, pure, Except.pure, Except.ok.injEq] at h
    obtain ⟨_, -, rfl⟩ := h
    exact hp
  · cases h

namespace RecordReader

variable {cwd : Path} {r r' : RecordReader} {details : Value}

theorem consumeContext_eq_ok : consumeContext cwd r details = .ok r' ↔
    ∃ sourceContext directoryIdentity,
      Phase.ofFields (ascii "context") details = .ok (.context sourceContext directoryIdentity) ∧
      directoryIdentity = r.directoryIdentity ∧
      (∃ u, validateContext cwd r.spec sourceContext = .ok u) ∧
      contextDigest sourceContext = .ok r.expectedSourceDigest ∧
      r' = { r with result := { r.result with
        sourceContext, sourceDigest := r.expectedSourceDigest } } := by
  simp only [consumeContext, Phase.ofFields, if_true, bind_eq_ok, pure, Except.pure,
    Except.ok.injEq, demand_eq_ok, demandString_eq_ok, getString_eq_ok, beq_iff_eq]
  constructor
  · rintro ⟨u, hf, -, ⟨d, hd, rfl⟩, c, hc, v, hv, _, hdig, _, rfl, rfl⟩
    exact ⟨c, _, ⟨u, hf, c, hc, _, hd, rfl⟩, rfl, ⟨v, hv⟩, hdig, rfl⟩
  · rintro ⟨c, d, ⟨u, hf, c', hc, d', hd, he⟩, rfl, ⟨v, hv⟩, hdig, rfl⟩
    cases he
    exact ⟨u, hf, (), ⟨_, hd, rfl⟩, c, hc, v, hv, _, hdig, (), rfl, rfl⟩

theorem consumeIntent_eq_ok : consumeIntent r details = .ok r' ↔
    ∃ kind effect, Phase.ofFields (ascii "intent") details = .ok (.intent kind effect) ∧
      r.result.pendingKind = none ∧
      (∃ k, validateEffect r.spec.operation kind.name effect = .ok k) ∧
      r' = { r with
        result := { r.result with pendingKind := some kind, pendingDetails := effect }
        pendingSequence := r.result.nextSequence } := by
  rw [Phase.ofFields, if_neg (by decide), if_pos rfl]
  simp only [consumeIntent, bind_eq_ok, pure, Except.pure, Except.ok.injEq, demand_eq_ok,
    Option.isNone_iff_eq_none, kindOf_eq_ok]
  constructor
  · rintro ⟨u, hf, -, hn, kind, hk, effect, he, k, hv, rfl⟩
    have hkind : kind = k.name := (validateEffect_eq_ok.mp hv).1
    subst hkind
    exact ⟨k, effect, ⟨u, hf, _, hk, k, rfl, effect, he, rfl⟩, hn, ⟨k, hv⟩, rfl⟩
  · rintro ⟨kind, effect, ⟨u, hf, _, hk, k', rfl, e', he, heq⟩, hn, ⟨k, hv⟩, rfl⟩
    cases heq
    have hkind : kind.name = k.name := (validateEffect_eq_ok.mp hv).1
    have : kind = k := by
      have := congrArg EffectKind.ofName hkind
      rwa [EffectKind.ofName_name, EffectKind.ofName_name, Option.some.injEq] at this
    subst this
    exact ⟨u, hf, (), hn, _, hk, effect, he, kind, hv, rfl⟩

theorem consumeCompletion_eq_ok : consumeCompletion r details = .ok r' ↔
    ∃ intentSequence kind outcome resultDigest,
      Phase.ofFields (ascii "complete") details =
        .ok (.complete intentSequence kind outcome resultDigest) ∧
      r.result.pendingKind = some kind ∧ intentSequence = r.pendingSequence ∧
      (∃ u, validateCompletion kind outcome resultDigest = .ok u) ∧
      r' = { r with result := { r.result with
        pendingKind := none
        pendingDetails := .null
        completedEffects := r.result.completedEffects + 1
        completed := if r.retainCompleted then r.result.completed ++
            [{ intentSequence := r.pendingSequence, kind, details := r.result.pendingDetails,
               outcome, resultDigest }]
          else r.result.completed } } := by
  rw [Phase.ofFields, if_neg (by decide), if_neg (by decide), if_pos rfl]
  simp only [consumeCompletion, bind_eq_ok, pure, Except.pure, Except.ok.injEq, kindOf_eq_ok]
  constructor
  · rintro ⟨u, hf, h⟩
    split at h
    · cases h
    · next k hk =>
      simp only [bind_eq_ok, demand_eq_ok, demandString_eq_ok, beq_iff_eq, Except.ok.injEq] at h
      obtain ⟨-, ⟨_, hkind, rfl⟩, v, hv, n, hn, -, hseq, w, hw, d, hd, o, ho, u', hu', rfl⟩ := h
      exact ⟨n.toNat, k, o, d, ⟨u, hf, v, hv, n, hn, _, getString_eq_ok.mpr hkind, k, rfl, o, ho,
        w, hw, d, hd, rfl⟩, hk, hseq, ⟨u', hu'⟩, rfl⟩
  · rintro ⟨_, k, o, d, ⟨u, hf, v, hv, n, hn, _, hkind, _, rfl, _, ho, w, hw, _, hd, heq⟩, hk,
      hseq, ⟨u', hu'⟩, rfl⟩
    cases heq
    refine ⟨u, hf, ?_⟩
    rw [hk]
    simp only [bind_eq_ok, demand_eq_ok, demandString_eq_ok, beq_iff_eq, Except.ok.injEq]
    exact ⟨(), ⟨_, getString_eq_ok.mp hkind, rfl⟩, v, hv, n, hn, (), hseq, w, hw, d, hd, o, ho, u',
      hu', rfl⟩

theorem consumeSeal_eq_ok : consumeSeal r details = .ok r' ↔
    Phase.ofFields (ascii "sealed") details = .ok .closed ∧ r.result.pendingKind = none ∧
      r' = { r with result := { r.result with isSealed := true } } := by
  rw [Phase.ofFields, if_neg (by decide), if_neg (by decide), if_neg (by decide), if_pos rfl]
  simp only [consumeSeal, bind_eq_ok, pure, Except.pure, Except.ok.injEq, demand_eq_ok,
    Bool.and_eq_true, Option.isNone_iff_eq_none]
  constructor
  · rintro ⟨_, ⟨hn, hd⟩, rfl⟩
    exact ⟨⟨(), hd, trivial⟩, hn, rfl⟩
  · rintro ⟨⟨_, hd, -⟩, hn, rfl⟩
    exact ⟨(), ⟨hn, hd⟩, rfl⟩

/-- The branches of `consume` are the machine's step on the phase that the record spells. -/
theorem consumePhase_eq_ok {phase : Bytes} : consumePhase cwd r phase details = .ok r' ↔
    ∃ p, Phase.ofFields phase details = .ok p ∧ r.advance cwd p = some r' := by
  constructor
  · intro h
    unfold consumePhase at h
    split at h
    · next h0 =>
      split at h
      · next hp =>
        subst hp
        obtain ⟨c, d, hf, hd, hv, hc, rfl⟩ := consumeContext_eq_ok.mp h
        refine ⟨_, hf, ?_⟩
        rw [advance, if_pos ⟨h0, hd, toBool_eq_true.mpr hv, toOption_eq_some.mpr hc⟩]
      · cases h
    next h0 =>
    split at h
    · next hp =>
      subst hp
      obtain ⟨k, e, hf, hn, hv, rfl⟩ := consumeIntent_eq_ok.mp h
      exact ⟨_, hf, if_pos ⟨h0, hn, toBool_eq_true.mpr hv⟩⟩
    split at h
    · next hp =>
      subst hp
      obtain ⟨n, k, o, d, hf, hk, hn, hv, rfl⟩ := consumeCompletion_eq_ok.mp h
      exact ⟨_, hf, if_pos ⟨h0, hk, hn, toBool_eq_true.mpr hv⟩⟩
    split at h
    · next hp =>
      subst hp
      obtain ⟨hf, hn, rfl⟩ := consumeSeal_eq_ok.mp h
      exact ⟨_, hf, if_pos ⟨h0, hn⟩⟩
    · cases h
  · rintro ⟨p, hf, ha⟩
    have hp := Phase.ofFields_text hf
    subst hp
    cases p with
    | context c d =>
      rw [Phase.text] at hf ⊢
      rw [advance, Option.ite_none_right_eq_some] at ha
      obtain ⟨⟨h0, hd, hv, hc⟩, he⟩ := ha
      rw [consumePhase, if_pos h0, if_pos rfl]
      exact consumeContext_eq_ok.mpr ⟨c, d, hf, hd, toBool_eq_true.mp hv, toOption_eq_some.mp hc,
        (Option.some.inj he).symm⟩
    | intent k e =>
      rw [Phase.text] at hf ⊢
      rw [advance, Option.ite_none_right_eq_some] at ha
      obtain ⟨⟨h0, hn, hv⟩, he⟩ := ha
      rw [consumePhase, if_neg h0, if_pos rfl]
      exact consumeIntent_eq_ok.mpr ⟨k, e, hf, hn, toBool_eq_true.mp hv, (Option.some.inj he).symm⟩
    | complete n k o d =>
      rw [Phase.text] at hf ⊢
      rw [advance, Option.ite_none_right_eq_some] at ha
      obtain ⟨⟨h0, hk, hn, hv⟩, he⟩ := ha
      rw [consumePhase, if_neg h0, if_neg (by decide), if_pos rfl]
      exact consumeCompletion_eq_ok.mpr ⟨n, k, o, d, hf, hk, hn, toBool_eq_true.mp hv,
        (Option.some.inj he).symm⟩
    | closed =>
      rw [Phase.text] at hf ⊢
      rw [advance, Option.ite_none_right_eq_some] at ha
      obtain ⟨⟨h0, hn⟩, he⟩ := ha
      rw [consumePhase, if_neg h0, if_neg (by decide), if_neg (by decide), if_pos rfl]
      exact consumeSeal_eq_ok.mpr ⟨hf, hn, (Option.some.inj he).symm⟩

theorem checkBinding_eq_ok {recordName : Bytes} {value : Value} {rec : Record} {u : Unit}
    (hrec : recordOf value = .ok rec) (hroom : r.result.nextSequence < r.recordCount) :
    checkBinding r recordName value = .ok u ↔ r.Links recordName rec := by
  simp only [recordOf, bind_eq_ok, pure, Except.pure, Except.ok.injEq] at hrec
  obtain ⟨v, hv, n, hn, t, ht, d, hd, w, hw, q, hq, ph, -, de, -, p, -, g, -, rfl⟩ := hrec
  have hprev : (if r.result.nextSequence = 0
        then demand w.isNull "maintenance journal chain or binding is invalid"
        else do
          let s ← w.asString
          demand (s == r.result.journalDigest) "maintenance journal chain or binding is invalid") =
        .ok u ↔ q = if r.result.nextSequence = 0 then none else some r.result.journalDigest := by
    cases w with
    | null =>
      obtain rfl : none = q := Except.ok.inj hq
      split <;> simp [Value.isNull, demand, Value.asString, bind, Except.bind]
    | string s =>
      obtain rfl : some s = q := Except.ok.inj hq
      split <;> simp [Value.isNull, demand, Value.asString, bind, Except.bind]
    | _ => cases hq
  simp only [checkBinding, bind_eq_ok, demand_eq_ok, demandString_eq_ok, beq_iff_eq, hv,
    Except.ok.injEq, ← getString_eq_ok, ht, hd, hw, Bool.not_eq_true']
  constructor
  · rintro ⟨-, h1, _, rfl, n', hn', -, h2, -, ⟨_, rfl, h3⟩, -, ⟨_, rfl, h4⟩, -, h5, _, rfl, h6⟩
    rw [hn, Except.ok.injEq] at hn'
    subst hn'
    exact ⟨hroom, h1, h2, h3, h4, h5, hprev.mp h6⟩
  · rintro ⟨-, h1, h2, h3, h4, h5, h6⟩
    exact ⟨(), h1, v, rfl, n, hn, (), h2, (), ⟨t, rfl, h3⟩, (), ⟨d, rfl, h4⟩, (), h5, w, rfl,
      hprev.mpr h6⟩

end RecordReader

theorem decodeRecordText_eq_ok {text : Bytes} {bytes b : Nat} {value : Value} :
    decodeRecordText text bytes = .ok (value, b) ↔
      Decodes text value ∧ bytes ≤ maximumJournalBytes - text.length ∧
        b = bytes + text.length := by
  simp only [decodeRecordText, bind_eq_ok, demand_eq_ok, decide_eq_true_eq, pure, Except.pure,
    Except.ok.injEq, beq_iff_eq, demandString_eq_ok, Prod.mk.injEq]
  constructor
  · rintro ⟨-, h1, -, h2, v, h3, u, h4, hash, h5, o, h6, -, h7, -, -, -, rfl, -, ⟨_, h8, rfl⟩, rfl,
      rfl⟩
    exact ⟨⟨h1, h3, h4, h7, ⟨o, asObject_eq_ok.mp h6, h5⟩, getString_eq_ok.mpr h8⟩, h2, rfl⟩
  · rintro ⟨⟨h1, h3, h4, h7, ⟨o, ho, h5⟩, h8⟩, h2, rfl⟩
    exact ⟨(), h1, (), h2, value, h3, (), h4, _, h5, o, asObject_eq_ok.mpr ho, (), h7, (),
      validSha256_sha256 _, (), rfl, (), ⟨_, getString_eq_ok.mp h8, rfl⟩, rfl, rfl⟩

namespace RecordReader

variable {cwd : Path} {r r' : RecordReader}

/-- The reader consumes a record exactly when the record decodes, links and drives the machine. -/
theorem consumeRecord_eq_ok {recordName text : Bytes} :
    consumeRecord cwd r recordName text = .ok r' ↔
      ∃ value rec r₁, Decodes text value ∧ r.bytes ≤ maximumJournalBytes - text.length ∧
        recordOf value = .ok rec ∧ r.Links recordName rec ∧
        advance cwd { r with bytes := r.bytes + text.length } rec.phase = some r₁ ∧
        r' = r₁.accept rec.digest := by
  simp only [consumeRecord, bind_eq_ok, demand_eq_ok, decide_eq_true_eq, Prod.exists,
    decodeRecordText_eq_ok, consumePhase_eq_ok, pure, Except.pure, Except.ok.injEq]
  constructor
  · rintro ⟨-, hroom, value, _, ⟨hdec, hlen, rfl⟩, _, hbind, ph, hph, de, hde, r₁, ⟨p, hp, ha⟩, g,
      hg, rfl⟩
    obtain ⟨rec, hrec, hphase, hdigest⟩ : ∃ rec, recordOf value = .ok rec ∧ rec.phase = p ∧
        rec.digest = g := by
      simp only [checkBinding, bind_eq_ok, demand_eq_ok, demandString_eq_ok] at hbind
      obtain ⟨-, -, v, hv, n, hn, -, -, -, ⟨t, ht, -⟩, -, ⟨d, hd, -⟩, -, -, w, hw, h⟩ := hbind
      obtain ⟨q, hq⟩ : ∃ q, previousOf w = .ok q := by
        cases w with
        | null => exact ⟨none, rfl⟩
        | string s => exact ⟨some s, rfl⟩
        | _ =>
          split at h
          · cases h
          · simp [Value.asString, bind, Except.bind] at h
      refine ⟨⟨n.toNat, t, d, q, g, p⟩, ?_, rfl, rfl⟩
      simp only [recordOf, bind_eq_ok, pure, Except.pure, Except.ok.injEq]
      exact ⟨v, hv, n, hn, t, getString_eq_ok.mpr ht, d, getString_eq_ok.mpr hd, w, hw, q, hq, ph,
        hph, de, hde, p, hp, g, hg, rfl⟩
    subst hphase hdigest
    exact ⟨value, rec, r₁, hdec, hlen, hrec, (checkBinding_eq_ok hrec hroom).mp hbind, ha, rfl⟩
  · rintro ⟨value, rec, r₁, hdec, hlen, hrec, hlinks, ha, rfl⟩
    have hbind := (checkBinding_eq_ok (u := ()) hrec hlinks.room).mpr hlinks
    simp only [recordOf, bind_eq_ok, pure, Except.pure, Except.ok.injEq] at hrec
    obtain ⟨_, -, _, -, _, -, _, -, _, -, _, -, ph, hph, de, hde, p, hp, g, hg, rfl⟩ := hrec
    exact ⟨(), hlinks.room, value, _, ⟨hdec, hlen, rfl⟩, (), hbind, ph, hph, de, hde, r₁,
      ⟨p, hp, ha⟩, g, hg, rfl⟩

end RecordReader

end Usk.Maintenance
