import UniversalSetup.Maintenance.Binding

/-!
# Writer, reader and resumed writer agree

A `World` is a journal directory with the object that writes it, if one is alive, and the phases
that became durable so far. Operations, crashes and resumptions move it. The reader keeps its own
account of the records; the invariant says that this account is the history, and that it is the
account of every usable writer. A resumed writer then differs from the one it replaces at most in a
number that nobody reads.

The records are read back only if the strings in the details are valid UTF-8. Neither
`validate_effect` nor `persist` asks for that, so it is a condition on the operations.
-/

namespace Usk.Maintenance

open Json Transaction

variable {report : Inspection} {phase : Bytes} {details : Value} {k : EffectKind}

/-! ## Operations -/

/-- A call on the object, with the place where the injector throws. -/
inductive Operation where
  | beginEffect (kind : Bytes) (details : Document) (fault : Fault)
  | completeEffect (outcome resultDigest : Bytes) (fault : Fault)
  | sealJournal (fault : Fault)

variable {op : Operation}

/-- The details of an effect that `validate_effect` accepts hold valid UTF-8 only. -/
def Operation.Utf8 (operation : Bytes) : Operation → Prop
  | .beginEffect kind details _ => (∃ k, validateEffect operation kind details.1 = .ok k) →
      AllStrings (fun s => validUtf8 s = true) details.1
  | _ => True

namespace EffectJournal

/-- One call. -/
def perform (j : EffectJournal) (d : Directory) : Operation → Outcome
  | .beginEffect kind details fault => j.beginEffect d fault kind details.1
  | .completeEffect outcome resultDigest fault => j.completeEffect d fault outcome resultDigest
  | .sealJournal fault => j.sealJournal d fault

/-- A list of calls: what each returns, and the directory after the last. -/
def performAll : EffectJournal → Directory → List Operation → List (Result Unit) × Directory
  | _, d, [] => ([], d)
  | j, d, op :: rest =>
    let o := j.perform d op
    let (results, d') := performAll o.journal o.directory rest
    (o.result :: results, d')

/-- The phase that a call records if it records anything. -/
def phaseOf (j : EffectJournal) : Operation → Option Phase
  | .beginEffect kind details _ => (EffectKind.ofName kind).map (.intent · details.1)
  | .completeEffect outcome resultDigest _ =>
    j.pendingKind.map (.complete j.pendingSequence · outcome resultDigest)
  | .sealJournal _ => some .closed

/-- What the object requires before it records a phase. -/
def Allows (j : EffectJournal) : Phase → Prop
  | .context .. => False
  | .intent kind effect =>
    j.pendingKind = none ∧ ∃ k, validateEffect j.spec.operation kind.name effect = .ok k
  | .complete intentSequence kind outcome resultDigest =>
    j.pendingKind = some kind ∧ intentSequence = j.pendingSequence ∧
      ∃ u, validateCompletion kind outcome resultDigest = .ok u
  | .closed => j.pendingKind = none

/-- The object's account of an intent, a completion or a seal. -/
def settle (j : EffectJournal) (intentSequence : Nat) : Phase → EffectJournal
  | .context .. => j
  | .intent kind _ => { j with pendingKind := some kind, pendingSequence := intentSequence }
  | .complete .. => { j with pendingKind := none }
  | .closed => { j with isSealed := true }

end EffectJournal

/-! ## Worlds -/

/-- A step of a run: a call, the end of the process, or a new process that resumes. -/
inductive Event where
  | call (op : Operation)
  | crash
  | resume (expectedHistoryDigest : Bytes)

def Event.Utf8 (operation : Bytes) : Event → Prop
  | .call op => op.Utf8 operation
  | _ => True

structure World where
  directory : Directory
  journal : Option EffectJournal
  /-- The phases after the context that became durable. -/
  history : List Phase := []

/-- What the phases after the context add up to. -/
structure Ledger where
  completed : Nat := 0
  pending : Option (EffectKind × Value) := none
  isSealed : Bool := false

def Ledger.record (l : Ledger) : Phase → Ledger
  | .context .. => l
  | .intent kind effect => { l with pending := some (kind, effect) }
  | .complete .. => { l with pending := none, completed := l.completed + 1 }
  | .closed => { l with isSealed := true }

def ledger (history : List Phase) : Ledger :=
  history.foldl Ledger.record {}

theorem ledger_append (history : List Phase) (p : Phase) :
    ledger (history ++ [p]) = (ledger history).record p := by
  rw [ledger, List.foldl_append]
  rfl

namespace World

/-- The constructor put the context on disk; whether it then threw does not matter. -/
def Starts (cwd : Path) (spec : TransactionSpec) (sourceDigest : Bytes) (w : World) : Prop :=
  ∃ sourceContext d fault o, d.files = [] ∧
    EffectJournal.create cwd spec sourceContext d fault = .ok o ∧ o.directory.files ≠ [] ∧
    sourceDigest = o.journal.sourceDigest ∧
    w = { directory := o.directory
          journal := if o.result.toBool then some o.journal else none }

def step (cwd : Path) (spec : TransactionSpec) (sourceDigest : Bytes) (w : World) : Event → World
  | .call op =>
    match w.journal with
    | none => w
    | some j =>
      let o := j.perform w.directory op
      { directory := o.directory
        journal := some o.journal
        history := if o.directory.files.length = w.directory.files.length then w.history
          else w.history ++ (j.phaseOf op).toList }
  | .crash => { w with journal := none }
  | .resume expectedHistoryDigest =>
    { w with journal :=
        (EffectJournal.resume cwd spec sourceDigest expectedHistoryDigest w.directory).toOption }

def run (cwd : Path) (spec : TransactionSpec) (sourceDigest : Bytes) (w : World)
    (events : List Event) : World :=
  events.foldl (step cwd spec sourceDigest) w

end World

/-- The report of the reader is the history, and the account of a usable writer. -/
structure Reports (w : World) (report : Inspection) : Prop where
  completed : report.completedEffects = (ledger w.history).completed
  next : report.nextSequence = w.history.length + 1
  pendingKind : report.pendingKind = (ledger w.history).pending.map Prod.fst
  pendingDetails : report.pendingDetails = ((ledger w.history).pending.map Prod.snd).getD .null
  isSealed : report.isSealed = (ledger w.history).isSealed
  bytes : report.serializedBytes = (w.directory.files.map fun f => f.2.length).sum
  writer : ∀ j, w.journal = some j → j.failed = false →
    j.sequence = report.nextSequence ∧ j.pendingKind = report.pendingKind ∧
    (j.pendingKind ≠ none → j.pendingSequence = report.pendingSequence) ∧
    j.isSealed = report.isSealed ∧ j.bytes = report.serializedBytes ∧
    j.lastDigest = report.journalDigest

/-! ## What a call can do -/

namespace EffectJournal

variable {j : EffectJournal} {d : Directory}

/-- `persist` refuses, fails before its record, or appends the record and then may fail. -/
theorem persist_cases (j : EffectJournal) (d : Directory) (fault : Fault) (phase : Bytes)
    (details : Value) :
    (∃ e, j.persist d fault phase details = ⟨d, j, .error e⟩) ∨
    (∃ e, j.persist d fault phase details = ⟨d, { j with failed := true }, .error e⟩) ∨
    (j.Fits phase details ∧
      (j.persist d fault phase details =
          ⟨j.append d phase details, j.recorded phase details, .ok ()⟩ ∨
        ∃ e, j.persist d fault phase details =
          ⟨j.append d phase details, { j.recorded phase details with failed := true },
            .error e⟩)) := by
  unfold persist
  split
  · exact Or.inl ⟨_, rfl⟩
  next hopen =>
  simp only [Bool.or_eq_true, decide_eq_true_eq, not_or, Bool.not_eq_true, not_le] at hopen
  split
  · exact Or.inr (Or.inl ⟨_, rfl⟩)
  next u hcheck =>
  have hbound : (j.recordText phase details).length ≤ maximumRecordBytes ∧
      j.bytes ≤ maximumJournalBytes - (j.recordText phase details).length := by
    simp only [checkPersist, bind_eq_ok, demand_eq_ok, decide_eq_true_eq] at hcheck
    obtain ⟨-, -, -, -, h⟩ := hcheck
    split at h
    · simp only [bind_eq_ok, demand_eq_ok, Bool.and_eq_true, decide_eq_true_eq] at h
      obtain ⟨-, -, -, -, -, -, h⟩ := h
      exact h
    · simpa using h
  split
  · exact Or.inr (Or.inl ⟨_, rfl⟩)
  next d' hwrite =>
  have hd' : d' = j.append d phase details := by
    unfold Directory.writeNew at hwrite
    split at hwrite
    · cases hwrite
    · exact (Except.ok.inj hwrite).symm
  subst hd'
  refine Or.inr (Or.inr ⟨⟨hopen.1.1, hopen.1.2, hopen.2, hbound.1, hbound.2⟩, ?_⟩)
  split
  · exact Or.inr ⟨_, rfl⟩
  · exact Or.inl rfl

/-- The object differs at most in the number of an intent that it did not record. -/
def Alike (j j' : EffectJournal) : Prop :=
  ∃ n, j' = { j with pendingSequence := n } ∧ (j.pendingKind ≠ none → n = j.pendingSequence)

theorem Alike.refl (j : EffectJournal) : j.Alike j :=
  ⟨j.pendingSequence, rfl, fun _ => rfl⟩

/-- What one call leaves: nothing new on disk, or one more record. -/
structure Effect (j : EffectJournal) (d : Directory) (op : Operation) (o : Outcome) : Prop where
  spec : o.journal.spec = j.spec
  directoryIdentity : o.journal.directoryIdentity = j.directoryIdentity
  sourceDigest : o.journal.sourceDigest = j.sourceDigest
  effect : (o.directory = d ∧ (o.journal.failed = false → j.Alike o.journal)) ∨
    ∃ p phase details, j.phaseOf op = some p ∧ j.Allows p ∧
      Phase.ofFields phase details = .ok p ∧ j.Fits phase details ∧
      (op.Utf8 j.spec.operation → Storable 11 248 details) ∧
      o.directory = j.append d phase details ∧
      (o.journal.failed = false → o.journal = (j.recorded phase details).settle j.sequence p)

theorem Effect.unchanged (j : EffectJournal) (d : Directory) (e : String) :
    j.Effect d op ⟨d, j, .error e⟩ :=
  ⟨rfl, rfl, rfl, Or.inl ⟨rfl, fun _ => Alike.refl j⟩⟩

theorem settle_same (j : EffectJournal) (n : Nat) (p : Phase) :
    (j.settle n p).spec = j.spec ∧ (j.settle n p).directoryIdentity = j.directoryIdentity ∧
      (j.settle n p).sourceDigest = j.sourceDigest := by
  cases p <;> exact ⟨rfl, rfl, rfl⟩

/-- The tail that the three calls share: `persist`, then the object's own account. -/
def persistThen (j : EffectJournal) (d : Directory) (fault : Fault) (phase : Bytes)
    (details : Value) (account : EffectJournal → EffectJournal) : Outcome :=
  let o := j.persist d fault phase details
  match o.result with
  | .error _ => o
  | .ok _ => { o with journal := account o.journal }

theorem persistThen_effect {op : Operation} {p : Phase} {phase : Bytes} {details : Value} {n : Nat}
    {fault : Fault} (account : EffectJournal → EffectJournal)
    (hn : j.pendingKind ≠ none → n = j.pendingSequence) (hop : j.phaseOf op = some p)
    (hallows : j.Allows p) (hspells : j.failed = false → Phase.ofFields phase details = .ok p)
    (hstore : op.Utf8 j.spec.operation → Storable 11 248 details)
    (haccount : account ({ j with pendingSequence := n }.recorded phase details) =
      (j.recorded phase details).settle j.sequence p) :
    j.Effect d op ({ j with pendingSequence := n }.persistThen d fault phase details account) := by
  unfold persistThen
  rcases persist_cases { j with pendingSequence := n } d fault phase details with
    ⟨e, he⟩ | ⟨e, he⟩ | ⟨⟨h1, h2, h3, h4, h5⟩, he | ⟨e, he⟩⟩
  · rw [he]
    exact ⟨rfl, rfl, rfl, Or.inl ⟨rfl, fun _ => ⟨n, rfl, hn⟩⟩⟩
  · rw [he]
    exact ⟨rfl, rfl, rfl, Or.inl ⟨rfl, fun h => absurd h (by simp)⟩⟩
  · rw [he]
    dsimp only
    rw [haccount]
    obtain ⟨hs, hd, hsrc⟩ := settle_same (j.recorded phase details) j.sequence p
    exact ⟨hs, hd, hsrc, Or.inr ⟨p, phase, details, hop, hallows, hspells h1, ⟨h1, h2, h3, h4, h5⟩,
      hstore, rfl, fun _ => rfl⟩⟩
  · rw [he]
    exact ⟨rfl, rfl, rfl, Or.inr ⟨p, phase, details, hop, hallows, hspells h1, ⟨h1, h2, h3, h4, h5⟩,
      hstore, rfl, fun h => absurd h (by simp)⟩⟩

/-- Every call, in any state of the object. -/
theorem perform_effect
    (hseq : j.failed = false → j.pendingKind ≠ none → j.pendingSequence < 2 ^ 64) (op : Operation) :
    j.Effect d op (j.perform d op) := by
  cases op with
  | beginEffect kind details fault =>
    rw [perform, beginEffect]
    split
    · exact Effect.unchanged ..
    next hnone =>
    rw [Bool.not_eq_true, Option.isSome_eq_false_iff, Option.isNone_iff_eq_none] at hnone
    split
    · exact Effect.unchanged ..
    next k hk =>
    obtain ⟨rfl, -⟩ := validateEffect_eq_ok.mp hk
    have hop : j.phaseOf (.beginEffect k.name details fault) = some (.intent k details.1) := by
      rw [phaseOf, EffectKind.ofName_name]
      rfl
    exact persistThen_effect (fun j => { j with pendingKind := some k })
      (fun h => absurd hnone h) hop ⟨hnone, k, hk⟩ (fun _ => ofFields_intentDetails k details.1)
      (fun hutf => storable_intentDetails details.2 hk (hutf ⟨k, hk⟩)) rfl
  | completeEffect outcome resultDigest fault =>
    rw [perform, completeEffect]
    split
    · exact Effect.unchanged ..
    next k hk =>
    split
    · exact Effect.unchanged ..
    next u hu =>
    have hop : j.phaseOf (.completeEffect outcome resultDigest fault) =
        some (.complete j.pendingSequence k outcome resultDigest) := by
      rw [phaseOf, hk]
      rfl
    exact persistThen_effect (fun j => { j with pendingKind := none })
      (fun _ => rfl) hop ⟨hk, rfl, u, hu⟩
      (fun h => ofFields_completionDetails (hseq h (by simp [hk])) k outcome resultDigest)
      (fun _ => storable_completionDetails hu) rfl
  | sealJournal fault =>
    rw [perform, sealJournal]
    split
    · exact Effect.unchanged ..
    next hnone =>
    rw [Bool.not_eq_true, Option.isSome_eq_false_iff, Option.isNone_iff_eq_none] at hnone
    exact persistThen_effect (fun j => { j with isSealed := true })
      (fun _ => rfl) rfl hnone (fun _ => ofFields_sealed)
      (fun _ => storable_null.mono (by decide) (by decide)) rfl

end EffectJournal

/-! ## The reader follows -/

namespace RecordReader

/-- The object and the reader agree on what the next record has to continue. -/
structure Tracks (r : RecordReader) (j : EffectJournal) : Prop where
  sequence : j.sequence = r.result.nextSequence
  lastDigest : j.lastDigest = r.result.journalDigest
  pendingKind : j.pendingKind = r.result.pendingKind
  pendingSequence : j.pendingKind ≠ none → j.pendingSequence = r.pendingSequence
  bytes : j.bytes = r.bytes
  isSealed : j.isSealed = r.result.isSealed

/-- A reader past the context of the journal with this source. -/
structure Past (spec : TransactionSpec) (sourceDigest : Bytes) (r : RecordReader) : Prop where
  spec : r.spec = spec
  expected : r.expectedSourceDigest = sourceDigest
  source : r.result.sourceDigest = sourceDigest
  started : r.result.nextSequence ≠ 0
  bounded : r.result.nextSequence ≤ maximumRecords
  digest : validSha256 r.result.journalDigest = true
  pending : r.pendingSequence ≤ r.result.nextSequence

end RecordReader

/-! ## The account of the reader -/

namespace RecordReader

variable {cwd : Path} {r r₁ : RecordReader} {j : EffectJournal}

/-- The reader's account is that of a history. -/
structure Accounts (r : RecordReader) (l : Ledger) : Prop where
  completed : r.result.completedEffects = l.completed
  pendingKind : r.result.pendingKind = l.pending.map Prod.fst
  pendingDetails : r.result.pendingDetails = (l.pending.map Prod.snd).getD .null
  isSealed : r.result.isSealed = l.isSealed

/-- A phase that the object allows drives the machine, and both enter the same thing. -/
theorem advance_of_allows {phase : Bytes} {details : Value} {p : Phase} {l : Ledger}
    (hspec : j.spec = r.spec) (hstarted : r.result.nextSequence ≠ 0)
    (hpending : r.pendingSequence ≤ r.result.nextSequence) (htracks : r.Tracks j)
    (hacc : r.Accounts l) (hallows : j.Allows p) :
    ∃ r₁, advance cwd { r with bytes := r.bytes + (j.recordText phase details).length } p =
        some r₁ ∧
      Tracks (r₁.accept (j.recordHash phase details))
        ((j.recorded phase details).settle j.sequence p) ∧
      Accounts (r₁.accept (j.recordHash phase details)) (l.record p) ∧
      r₁.result.sourceDigest = r.result.sourceDigest ∧
      r₁.pendingSequence ≤ r.result.nextSequence := by
  obtain ⟨hseq, -, hkind, hpseq, hbytes, hsealed⟩ := htracks
  obtain ⟨hcompleted, hpk, hpd, hacc⟩ := hacc
  cases p with
  | context c i => exact hallows.elim
  | intent kind effect =>
    obtain ⟨hnone, k, hk⟩ := hallows
    refine ⟨_, if_pos ⟨hstarted, hkind ▸ hnone, toBool_eq_true.mpr ⟨k, hspec ▸ hk⟩⟩, ?_, ?_, rfl,
      Nat.le_refl _⟩
    · exact ⟨congrArg (· + 1) hseq, rfl, rfl, fun _ => hseq, congrArg (· + _) hbytes, hsealed⟩
    · exact ⟨hcompleted, rfl, rfl, hacc⟩
  | complete n kind outcome resultDigest =>
    obtain ⟨hk, hn, u, hu⟩ := hallows
    have hn' : n = r.pendingSequence := hn.trans (hpseq (by simp [hk]))
    refine ⟨_, if_pos ⟨hstarted, hkind ▸ hk, hn', toBool_eq_true.mpr ⟨u, hu⟩⟩, ?_, ?_, rfl,
      hpending⟩
    · exact ⟨congrArg (· + 1) hseq, rfl, rfl, fun h => absurd rfl h, congrArg (· + _) hbytes,
        hsealed⟩
    · exact ⟨congrArg (· + 1) hcompleted, rfl, rfl, hacc⟩
  | closed =>
    refine ⟨_, if_pos ⟨hstarted, hkind ▸ hallows⟩, ?_, ?_, rfl, hpending⟩
    · exact ⟨congrArg (· + 1) hseq, rfl, hkind, hpseq, congrArg (· + _) hbytes, rfl⟩
    · exact ⟨hcompleted, hpk, hpd, rfl⟩

end RecordReader

/-! ## Runs -/

/-- The reader of the directory, its account of the history and of a usable object. -/
structure Consistent (cwd : Path) (spec : TransactionSpec) (sourceDigest : Bytes) (w : World)
    (retain : Bool) (r : RecordReader) : Prop where
  read : (freshReader spec w.directory.identity sourceDigest w.directory.files.length
    retain).consumeAll cwd w.directory.files = .ok r
  past : r.Past spec sourceDigest
  accounts : r.Accounts (ledger w.history)
  next : r.result.nextSequence = w.history.length + 1
  bytes : r.bytes = (w.directory.files.map fun f => f.2.length).sum
  writer : ∀ j, w.journal = some j → j.spec = spec ∧
    j.directoryIdentity = w.directory.identity ∧ j.sourceDigest = sourceDigest ∧
    (j.failed = false → r.Tracks j)

section Step

variable {cwd : Path} {spec : TransactionSpec} {sourceDigest : Bytes} {w : World} {retain : Bool}
  {r : RecordReader}

theorem Consistent.length (h : Consistent cwd spec sourceDigest w retain r) :
    r.result.nextSequence = w.directory.files.length :=
  ((RecordReader.consumeAll_frame ⟨rfl, rfl⟩ h.read).2).trans (Nat.zero_add _)

theorem Consistent.forget (h : Consistent cwd spec sourceDigest w retain r) :
    Consistent cwd spec sourceDigest { w with journal := none } retain r :=
  { h with writer := fun _ hj => by cases hj }

/-- One more record on disk: the reader reads it after all the others. -/
theorem Consistent.consume {d : Directory} {name text : Bytes} {r' : RecordReader}
    (h : Consistent cwd spec sourceDigest w retain r)
    (hd : d = { w.directory with files := w.directory.files ++ [(name, text)] })
    (hr : RecordReader.consumeRecord cwd { r with recordCount := w.directory.files.length + 1 }
      name text = .ok r') :
    (freshReader spec d.identity sourceDigest d.files.length retain).consumeAll cwd d.files =
      .ok r' := by
  subst hd
  have hlive : (freshReader spec w.directory.identity sourceDigest w.directory.files.length
    retain).Live := ⟨rfl, rfl⟩
  have hrecount := RecordReader.consumeAll_recount (w.directory.files.length + 1) hlive
    (by show 0 + _ ≤ _; omega) h.read
  have hr' : r.Live := hlive.of_same (RecordReader.consumeAll_frame hlive h.read).1
  have hlive' : RecordReader.Live { r with recordCount := w.directory.files.length + 1 } := hr'
  rw [List.length_append, List.length_singleton]
  exact (RecordReader.consumeAll_append ⟨rfl, rfl⟩).mpr
    ⟨_, hrecount, (RecordReader.consumeAll_cons hlive').mpr ⟨r', hr, rfl⟩⟩

theorem Consistent.sound {j : EffectJournal} (h : Consistent cwd spec sourceDigest w retain r)
    (hid : validIdentifier spec.transactionId = true) (hsrc : validSha256 sourceDigest = true)
    (hj : w.journal = some j) (hlive : j.failed = false) : j.Sound := by
  obtain ⟨hspec, -, hsource, htracks⟩ := h.writer j hj
  have ht := htracks hlive
  refine ⟨hspec ▸ hid, hsource ▸ hsrc, Or.inr (ht.lastDigest ▸ h.past.digest), ?_⟩
  rw [ht.sequence]
  exact Nat.lt_of_le_of_lt h.past.bounded (by decide)

/-- The record that an object appends is one that the reader consumes, and both enter it alike. -/
theorem Consistent.append {j j' : EffectJournal} {p : Phase} {phase : Bytes} {details : Value}
    (h : Consistent cwd spec sourceDigest w retain r) (hsound : j.Sound)
    (hj : w.journal = some j) (hallows : j.Allows p)
    (hspells : Phase.ofFields phase details = .ok p) (hfits : j.Fits phase details)
    (hstore : Storable 11 248 details)
    (hsame : j'.spec = j.spec ∧ j'.directoryIdentity = j.directoryIdentity ∧
      j'.sourceDigest = j.sourceDigest)
    (hsettle : j'.failed = false → j' = (j.recorded phase details).settle j.sequence p) :
    ∃ r', Consistent cwd spec sourceDigest
      { directory := j.append w.directory phase details
        journal := some j'
        history := w.history ++ [p] } retain r' := by
  obtain ⟨hspec, hdir, hsource, htracks⟩ := h.writer j hj
  have ht := htracks hfits.usable
  -- the reader was announced one record less
  let q : RecordReader := { r with recordCount := w.directory.files.length + 1 }
  have hq : q.Tracks j := { ht with }
  have hqa : q.Accounts (ledger w.history) := { h.accounts with }
  obtain ⟨r₁, hadvance, htracks', haccounts, hsource', hpending⟩ :=
    @RecordReader.advance_of_allows cwd q j phase details p _
      (hspec.trans h.past.spec.symm) h.past.started h.past.pending hq hqa hallows
  obtain ⟨hframe, hnext, hbytes⟩ := RecordReader.advance_frame hadvance
  have hid : j.spec.transactionId = q.spec.transactionId := by
    rw [hspec]
    exact congrArg TransactionSpec.transactionId h.past.spec.symm
  have hroom : q.result.nextSequence < q.recordCount := by
    show r.result.nextSequence < w.directory.files.length + 1
    rw [h.length]
    exact Nat.lt_succ_self _
  have hprev : (if j.lastDigest.isEmpty then none else some j.lastDigest) =
      if q.result.nextSequence = 0 then none else some q.result.journalDigest := by
    have hne : ¬r.result.journalDigest.isEmpty = true := by
      intro he
      have hv := h.past.digest
      rw [List.isEmpty_iff.mp he] at hv
      exact absurd hv (by decide)
    rw [if_neg (show ¬q.result.nextSequence = 0 from h.past.started), ht.lastDigest, if_neg hne]
  have hconsume := RecordReader.consumeRecord_recordText hsound hfits hid
    (hsource.trans h.past.expected.symm) hspells hstore hroom ht.sequence
    (ht.isSealed ▸ hfits.unsealed) ht.bytes hprev hadvance
  refine ⟨r₁.accept (j.recordHash phase details), h.consume rfl hconsume, ?_, ?_, ?_, ?_, ?_⟩
  · refine ⟨hframe.spec.trans h.past.spec, hframe.expectedSourceDigest.trans h.past.expected,
      hsource'.trans h.past.source, Nat.succ_ne_zero _, ?_, EffectJournal.recordHash_valid, ?_⟩
    · show r₁.result.nextSequence + 1 ≤ maximumRecords
      rw [hnext]
      exact ht.sequence ▸ hfits.numbered
    · show r₁.pendingSequence ≤ r₁.result.nextSequence + 1
      rw [hnext]
      exact hpending.trans (Nat.le_succ _)
  · rw [ledger_append]
    exact haccounts
  · show r₁.result.nextSequence + 1 = _
    rw [hnext, List.length_append, List.length_singleton]
    exact congrArg (· + 1) h.next
  · show r₁.bytes = _
    rw [hbytes, EffectJournal.append, List.map_append, List.sum_append]
    show r.bytes + _ = _
    rw [h.bytes]
    simp
  · rintro _ ⟨rfl⟩
    refine ⟨hsame.1.trans hspec, hsame.2.1.trans hdir, hsame.2.2.trans hsource, fun hlive => ?_⟩
    rw [hsettle hlive]
    exact htracks'

/-- A call keeps the reader in step with the history and the object. -/
theorem Consistent.call (h : Consistent cwd spec sourceDigest w retain r)
    (hid : validIdentifier spec.transactionId = true) (hsrc : validSha256 sourceDigest = true)
    (hutf : op.Utf8 spec.operation) :
    ∃ r', Consistent cwd spec sourceDigest (w.step cwd spec sourceDigest (.call op)) retain r' := by
  cases hj : w.journal with
  | none =>
    refine ⟨r, ?_⟩
    rw [World.step, hj]
    exact h
  | some j =>
    obtain ⟨hspec, hdir, hsource, htracks⟩ := h.writer j hj
    have hseq : j.failed = false → j.pendingKind ≠ none → j.pendingSequence < 2 ^ 64 := by
      intro hlive hpending
      rw [(htracks hlive).pendingSequence hpending]
      exact Nat.lt_of_le_of_lt (h.past.pending.trans h.past.bounded) (by decide)
    have heffect := EffectJournal.perform_effect (d := w.directory) hseq op
    rw [World.step, hj]
    dsimp only
    generalize j.perform w.directory op = o at heffect ⊢
    obtain ⟨ho1, ho2, ho3, ⟨hsame, halike⟩ | ⟨p, phase, details, hop, hallows, hspells, hfits,
      hstore, happend, hsettle⟩⟩ := heffect
    · -- nothing was written
      refine ⟨r, ?_⟩
      rw [if_pos (by rw [hsame]), hsame]
      refine { h with writer := ?_ }
      rintro _ ⟨rfl⟩
      refine ⟨ho1.trans hspec, ho2.trans hdir, ho3.trans hsource, fun hlive => ?_⟩
      obtain ⟨n, he, hn⟩ := halike hlive
      rw [he] at hlive ⊢
      have ht := htracks hlive
      exact ⟨ht.sequence, ht.lastDigest, ht.pendingKind,
        fun hp => (hn hp).trans (ht.pendingSequence hp), ht.bytes, ht.isSealed⟩
    · -- one record was written, even if the call then failed
      rw [if_neg (by rw [happend, EffectJournal.append]; simp), hop, Option.toList_some, happend]
      exact h.append (h.sound hid hsrc hj hfits.usable) hj hallows hspells hfits
        (hstore (hspec ▸ hutf)) ⟨ho1, ho2, ho3⟩ hsettle

end Step

/-! ## Inspecting the directory -/

theorem filename_eq {n : Nat} (h : n < 10 ^ 20) : filename n = padded 20 n ++ ascii ".json" :=
  congrArg (· ++ ascii ".json") (replicate_append_decimal h)

theorem filename_lt {a b : Nat} (hb : b < 10 ^ 20) (h : a < b) : filename a < filename b := by
  rw [filename_eq (h.trans hb), filename_eq hb]
  exact append_lt_append (by rw [padded_length, padded_length]) (padded_lt hb h) _ _

section Inspect

variable {cwd : Path} {r r' : RecordReader} {xs : List (Bytes × Bytes)}

/-- The records that are read come in the order of their names. -/
theorem pairwise_of_consumeAll (hl : r.Live) (h : r.consumeAll cwd xs = .ok r')
    (hbound : r.result.nextSequence + xs.length < 10 ^ 20) :
    (∀ x ∈ xs, ∃ n, r.result.nextSequence ≤ n ∧ n < r.result.nextSequence + xs.length ∧
        x.1 = filename n) ∧
      xs.Pairwise fun a b => a.1 ≤ b.1 := by
  induction xs generalizing r with
  | nil => exact ⟨fun x hx => absurd hx List.not_mem_nil, .nil⟩
  | cons entry rest ih =>
    obtain ⟨q, h1, h2⟩ := (RecordReader.consumeAll_cons hl).mp h
    obtain ⟨hs, hn⟩ := RecordReader.consumeRecord_frame h1
    obtain ⟨_, _, _, -, -, -, hlinks, -, -⟩ := RecordReader.consumeRecord_eq_ok.mp h1
    rw [List.length_cons] at hbound ⊢
    obtain ⟨hnames, hpair⟩ := ih (hl.of_same hs) h2 (by omega)
    constructor
    · intro x hx
      rcases List.mem_cons.mp hx with rfl | hx
      · exact ⟨_, Nat.le_refl _, by omega, hlinks.named⟩
      · obtain ⟨n, hge, hlt, he⟩ := hnames x hx
        exact ⟨n, by omega, by omega, he⟩
    · refine .cons (fun x hx => ?_) hpair
      obtain ⟨n, hge, hlt, he⟩ := hnames x hx
      have hlt' : filename r.result.nextSequence < filename n :=
        filename_lt (by omega) (by omega)
      rw [he, hlinks.named]
      exact List.le_of_lt hlt'

theorem inspectFiles_of_consumeAll (hl : r.Live) (h : r.consumeAll cwd xs = .ok r') :
    EffectJournal.inspectFiles cwd r xs = .ok r' := by
  induction xs generalizing r with
  | nil => exact h
  | cons entry rest ih =>
    obtain ⟨q, h1, h2⟩ := (RecordReader.consumeAll_cons hl).mp h
    obtain ⟨_, _, _, hdec, -⟩ := RecordReader.consumeRecord_eq_ok.mp h1
    have hfail : (r.failed || r.finished) = false := by rw [hl.1, hl.2]; rfl
    rw [EffectJournal.inspectFiles, if_neg (Nat.not_lt.mpr hdec.bounded), RecordReader.consume,
      hfail, h1]
    exact ih (hl.of_same (RecordReader.consumeRecord_frame h1).1) h2

/-- `inspect` accepts a directory whose files, as they were written, are an accepted journal. -/
theorem inspect_of_readRecords {spec : TransactionSpec} {sourceDigest : Bytes} {retain : Bool}
    {d : Directory}
    (h : readRecords cwd spec d.identity sourceDigest d.files.length retain d.files = .ok report) :
    EffectJournal.inspect cwd spec sourceDigest retain d = .ok report := by
  obtain ⟨⟨hid, hsrc, hpos, hmax⟩, -, r, hr, rfl⟩ := readRecords_eq_ok.mp h
  have hbound : 0 + d.files.length < 10 ^ 20 :=
    Nat.lt_of_le_of_lt ((Nat.zero_add _).le.trans hmax) (by decide)
  have hsorted : d.sorted = d.files :=
    (pairwise_of_consumeAll ⟨rfl, rfl⟩ hr hbound).2.insertionSort_eq
  have hfiles := inspectFiles_of_consumeAll ⟨rfl, rfl⟩ hr
  have hfinish : r.finish.1 = .ok (reportOf r) := by
    simp only [readRecords, bind_eq_ok] at h
    obtain ⟨q, hq, r', hr', hfin⟩ := h
    simp only [RecordReader.create, bind_eq_ok, pure, Except.pure, Except.ok.injEq] at hq
    obtain ⟨-, -, rfl⟩ := hq
    rw [show r' = r from Except.ok.inj (hr'.symm.trans hr)] at hfin
    exact hfin
  simp only [EffectJournal.inspect, bind_eq_ok, demand_eq_ok, Bool.and_eq_true, decide_eq_true_eq,
    RecordReader.create, pure, Except.pure, Except.ok.injEq, hsorted]
  have hne : (!d.files.isEmpty) = true := by
    rw [Bool.not_eq_true', List.isEmpty_eq_false_iff]
    exact List.length_pos_iff.mp hpos
  exact ⟨(), ⟨hid, hsrc⟩, (), hmax, (), hne, _, ⟨(), ⟨⟨⟨hid, hsrc⟩, hpos⟩, hmax⟩, rfl⟩, r, hfiles,
    hfinish⟩

end Inspect

/-! ## Resuming -/

namespace EffectJournal

variable {j j' : EffectJournal}

theorem persist_renumber (n : Nat) (d : Directory) (fault : Fault) (phase : Bytes)
    (details : Value) : { j with pendingSequence := n }.persist d fault phase details =
      let o := j.persist d fault phase details
      { o with journal := { o.journal with pendingSequence := n } } := by
  have hcheck : { j with pendingSequence := n }.checkPersist d fault phase details =
      j.checkPersist d fault phase details := rfl
  unfold persist
  rw [hcheck]
  dsimp only
  split
  · rfl
  split
  · rfl
  have htext : { j with pendingSequence := n }.recordText phase details =
      j.recordText phase details := rfl
  rw [htext]
  split
  · rfl
  split <;> rfl

/-- Objects that differ in an unused number answer every call alike. -/
theorem Alike.perform (h : j.Alike j') (d : Directory) (op : Operation) :
    (j'.perform d op).result = (j.perform d op).result ∧
      (j'.perform d op).directory = (j.perform d op).directory ∧
      (j.perform d op).journal.Alike (j'.perform d op).journal := by
  obtain ⟨n, rfl, hn⟩ := h
  cases op with
  | beginEffect kind details fault =>
    simp only [EffectJournal.perform, beginEffect]
    split
    · exact ⟨rfl, rfl, n, rfl, hn⟩
    split
    · exact ⟨rfl, rfl, n, rfl, hn⟩
    · exact ⟨rfl, rfl, Alike.refl _⟩
  | completeEffect outcome resultDigest fault =>
    by_cases hk : j.pendingKind = none
    · simp only [EffectJournal.perform, completeEffect, hk]
      exact ⟨trivial, trivial, n, by simp [hk], fun h => absurd hk h⟩
    · rw [hn hk]
      exact ⟨rfl, rfl, Alike.refl _⟩
  | sealJournal fault =>
    simp only [EffectJournal.perform, sealJournal, persist_renumber]
    split
    · exact ⟨rfl, rfl, n, rfl, hn⟩
    next hnone =>
    rw [Bool.not_eq_true, Option.isSome_eq_false_iff, Option.isNone_iff_eq_none] at hnone
    -- whatever `persist` does, it keeps the pending kind
    rcases persist_cases j d fault (ascii "sealed") .null with
      ⟨e, he⟩ | ⟨e, he⟩ | ⟨-, he | ⟨e, he⟩⟩ <;>
    · rw [he]
      exact ⟨rfl, rfl, n, rfl, fun h => absurd hnone h⟩

theorem Alike.performAll (h : j.Alike j') (d : Directory) (ops : List Operation) :
    j'.performAll d ops = j.performAll d ops := by
  induction ops generalizing j j' d with
  | nil => rfl
  | cons op rest ih =>
    obtain ⟨hresult, hdirectory, hjournal⟩ := h.perform d op
    rw [EffectJournal.performAll, EffectJournal.performAll, hresult, hdirectory, ih hjournal]

end EffectJournal

section Runs

variable {cwd : Path} {spec : TransactionSpec} {sourceDigest : Bytes} {w : World} {retain : Bool}
  {r : RecordReader}

theorem Consistent.readRecords (h : Consistent cwd spec sourceDigest w retain r)
    (hid : validIdentifier spec.transactionId = true) (hsrc : validSha256 sourceDigest = true) :
    readRecords cwd spec w.directory.identity sourceDigest w.directory.files.length retain
      w.directory.files = .ok (reportOf r) := by
  refine readRecords_eq_ok.mpr ⟨⟨hid, hsrc, ?_, ?_⟩, rfl, r, h.read, rfl⟩
  · rw [← h.length]
    exact Nat.pos_of_ne_zero h.past.started
  · rw [← h.length]
    exact h.past.bounded

theorem Consistent.reports (h : Consistent cwd spec sourceDigest w retain r) :
    Reports w (reportOf r) := by
  refine ⟨h.accounts.completed, h.next, h.accounts.pendingKind, h.accounts.pendingDetails,
    h.accounts.isSealed, h.bytes, fun j hj hlive => ?_⟩
  have ht := (h.writer j hj).2.2.2 hlive
  exact ⟨ht.sequence, ht.pendingKind, ht.pendingSequence, ht.isSealed, ht.bytes, ht.lastDigest⟩

/-- What `resume` makes of a directory: an object in step with the reader. -/
theorem Consistent.resume (h : Consistent cwd spec sourceDigest w false r)
    (hid : validIdentifier spec.transactionId = true) (hsrc : validSha256 sourceDigest = true)
    {digest : Bytes} {j : EffectJournal} :
    EffectJournal.resume cwd spec sourceDigest digest w.directory = .ok j ↔
      digest = r.result.journalDigest ∧ r.result.isSealed = false ∧
      j = { spec, directoryIdentity := w.directory.identity, sourceDigest,
            lastDigest := r.result.journalDigest, pendingKind := r.result.pendingKind,
            pendingSequence := r.pendingSequence, sequence := r.result.nextSequence,
            bytes := r.bytes } := by
  have hinspect := inspect_of_readRecords (h.readRecords hid hsrc)
  have hidentity : (reportOf r).directoryIdentity = w.directory.identity :=
    (RecordReader.consumeAll_frame ⟨rfl, rfl⟩ h.read).1.directoryIdentity
  have hsource : (reportOf r).sourceDigest = sourceDigest := h.past.source
  simp only [EffectJournal.resume, hinspect, bind_eq_ok, Except.ok.injEq, demand_eq_ok,
    Bool.and_eq_true, beq_iff_eq, Bool.not_eq_true', pure, Except.pure, exists_eq_left', hidentity,
    hsource]
  constructor
  · rintro ⟨-, ⟨⟨-, rfl⟩, hsealed⟩, rfl⟩
    exact ⟨rfl, hsealed, rfl⟩
  · rintro ⟨rfl, hsealed, rfl⟩
    exact ⟨(), ⟨⟨h.past.digest, rfl⟩, hsealed⟩, rfl⟩

/-- The object that `resume` makes out of the digest of a usable one. -/
theorem Consistent.resumed {j : EffectJournal} {digest : Bytes}
    (h : Consistent cwd spec sourceDigest w false r)
    (hid : validIdentifier spec.transactionId = true) (hsrc : validSha256 sourceDigest = true)
    (hj : w.journal = some j) (hlive : j.failed = false) (hopen : j.isSealed = false)
    (hdigest : digest = j.lastDigest) :
    EffectJournal.resume cwd spec sourceDigest digest w.directory =
      .ok { j with pendingSequence := r.pendingSequence } := by
  obtain ⟨hspec, hdir, hsource, htracks⟩ := h.writer j hj
  have ht := htracks hlive
  refine (h.resume hid hsrc).mpr ⟨hdigest.trans ht.lastDigest, ht.isSealed.symm.trans hopen, ?_⟩
  simp only [EffectJournal.mk.injEq]
  exact ⟨hspec, hdir, hsource, ht.lastDigest, ht.pendingKind, trivial, ht.sequence, ht.bytes, hopen,
    hlive⟩

/-- A new process goes on where a usable object was. -/
theorem Consistent.recovered {j : EffectJournal} (h : Consistent cwd spec sourceDigest w false r)
    (hid : validIdentifier spec.transactionId = true) (hsrc : validSha256 sourceDigest = true)
    (hj : w.journal = some j) (hlive : j.failed = false) (hopen : j.isSealed = false) :
    (w.step cwd spec sourceDigest .crash).step cwd spec sourceDigest (.resume j.lastDigest) =
      { w with journal := some { j with pendingSequence := r.pendingSequence } } := by
  have hresumed := h.resumed hid hsrc hj hlive hopen rfl
  rw [World.step, World.step, hresumed]
  rfl

theorem Consistent.step {event : Event} (h : Consistent cwd spec sourceDigest w false r)
    (hid : validIdentifier spec.transactionId = true) (hsrc : validSha256 sourceDigest = true)
    (hutf : event.Utf8 spec.operation) :
    ∃ r', Consistent cwd spec sourceDigest (w.step cwd spec sourceDigest event) false r' := by
  cases event with
  | call op => exact h.call hid hsrc hutf
  | crash => exact ⟨r, h.forget⟩
  | resume digest =>
    refine ⟨r, { h with writer := fun j hj => ?_ }⟩
    obtain ⟨-, hsealed, rfl⟩ := (h.resume hid hsrc).mp (toOption_eq_some.mp hj)
    exact ⟨rfl, rfl, rfl, fun _ => ⟨rfl, rfl, rfl, fun _ => rfl, rfl, hsealed.symm⟩⟩

theorem Consistent.run {events : List Event} (h : Consistent cwd spec sourceDigest w false r)
    (hid : validIdentifier spec.transactionId = true) (hsrc : validSha256 sourceDigest = true)
    (hutf : ∀ event ∈ events, event.Utf8 spec.operation) :
    ∃ r', Consistent cwd spec sourceDigest (w.run cwd spec sourceDigest events) false r' := by
  induction events generalizing w r with
  | nil => exact ⟨r, h⟩
  | cons event rest ih =>
    obtain ⟨r', h'⟩ := h.step hid hsrc (hutf event List.mem_cons_self)
    exact ih h' fun e he => hutf e (List.mem_cons_of_mem event he)

/-- The constructor leaves one record, the context, and the reader reads it. -/
theorem World.Starts.consistent (h : w.Starts cwd spec sourceDigest) :
    validIdentifier spec.transactionId = true ∧ validSha256 sourceDigest = true ∧
      ∃ r, Consistent cwd spec sourceDigest w false r := by
  obtain ⟨sourceContext, d, fault, o, hempty, hcreate, hne, hsource, rfl⟩ := h
  obtain ⟨⟨u, hu⟩, rfl⟩ := EffectJournal.create_eq_ok.mp hcreate
  let j := EffectJournal.opening spec sourceContext d
  let details := EffectJournal.contextDetails sourceContext d.identity
  have hsound := EffectJournal.opening_sound hu d
  -- the object is kept only if the constructor returned
  have hwritten : ∃ journal, j.Fits (ascii "context") details ∧
      sourceDigest = sha256 sourceContext ∧
      (∀ j', journal = some j' → j' = j.recorded (ascii "context") details) ∧
      { directory := (j.persist d fault (ascii "context") details).directory
        journal := if (j.persist d fault (ascii "context") details).result.toBool
          then some (j.persist d fault (ascii "context") details).journal else none : World } =
        { directory := j.append d (ascii "context") details, journal } := by
    rcases EffectJournal.persist_cases j d fault (ascii "context") details with
      ⟨e, he⟩ | ⟨e, he⟩ | ⟨hfits, he | ⟨e, he⟩⟩
    · rw [he] at hne
      exact absurd hempty hne
    · rw [he] at hne
      exact absurd hempty hne
    · rw [he] at hsource ⊢
      exact ⟨_, hfits, hsource, fun j' hj' => (Option.some.inj hj').symm, rfl⟩
    · rw [he] at hsource ⊢
      exact ⟨_, hfits, hsource, fun j' hj' => (by cases hj'), rfl⟩
  obtain ⟨journal, hfits, rfl, hjournal, hworld⟩ := hwritten
  rw [hworld]
  have hread := @consumeAll_opening cwd spec false sourceContext d u hu hfits
  have hfiles : (j.append d (ascii "context") details).files =
      [(filename 0, j.recordText (ascii "context") details)] := by
    rw [EffectJournal.append, hempty]
    rfl
  have hone : 1 ≤ maximumRecords := by decide
  refine ⟨hsound.identifier, hsound.source, openedReader spec sourceContext d false, ?_, ?_, ?_,
    ?_, ?_, ?_⟩
  · rw [hfiles]
    exact hread
  · exact ⟨rfl, rfl, rfl, Nat.one_ne_zero, hone, EffectJournal.recordHash_valid, Nat.zero_le _⟩
  · exact ⟨rfl, rfl, rfl, rfl⟩
  · rfl
  · rw [hfiles]
    exact (Nat.add_zero _).symm
  · intro j' hj'
    rw [hjournal j' hj']
    exact ⟨rfl, rfl, rfl, fun _ => ⟨rfl, rfl, rfl, fun h => absurd rfl h, Nat.zero_add _, rfl⟩⟩

theorem advance_retain {r r' : RecordReader} {p : Phase} (retain : Bool)
    (completed : List CompletedEffect) (h : r.advance cwd p = some r') :
    ∃ completed', RecordReader.advance cwd
        { r with retainCompleted := retain, result := { r.result with completed } } p =
      some { r' with retainCompleted := retain
                     result := { r'.result with completed := completed' } } := by
  cases p <;> rw [RecordReader.advance, Option.ite_none_right_eq_some] at h <;>
    obtain ⟨hc, he⟩ := h <;> cases he <;> exact ⟨_, if_pos hc⟩

/-- A retained list of completed effects is all that `retain` changes. -/
theorem consumeAll_retain {r r' : RecordReader} {xs : List (Bytes × Bytes)} (hl : r.Live)
    (retain : Bool) (completed : List CompletedEffect) (h : r.consumeAll cwd xs = .ok r') :
    ∃ completed', RecordReader.consumeAll cwd
        { r with retainCompleted := retain, result := { r.result with completed } } xs =
      .ok { r' with retainCompleted := retain
                    result := { r'.result with completed := completed' } } := by
  induction xs generalizing r completed with
  | nil =>
    cases h
    exact ⟨completed, rfl⟩
  | cons entry rest ih =>
    obtain ⟨q, h1, h2⟩ := (RecordReader.consumeAll_cons hl).mp h
    obtain ⟨value, rec, r₁, hdec, hbytes, hrec, hlinks, ha, rfl⟩ :=
      RecordReader.consumeRecord_eq_ok.mp h1
    obtain ⟨cs, hadvance⟩ := advance_retain retain completed ha
    obtain ⟨completed', h3⟩ := ih (hl.of_same (RecordReader.consumeRecord_frame h1).1) cs h2
    have hl' : RecordReader.Live
        { r with retainCompleted := retain, result := { r.result with completed } } := hl
    exact ⟨completed', (RecordReader.consumeAll_cons hl').mpr
      ⟨_, RecordReader.consumeRecord_eq_ok.mpr ⟨value, rec, _, hdec, hbytes, hrec,
        { hlinks with }, hadvance, rfl⟩, h3⟩⟩

theorem Consistent.retained (h : Consistent cwd spec sourceDigest w false r) (retain : Bool) :
    ∃ completed, Consistent cwd spec sourceDigest w retain { r with
      retainCompleted := retain
      result := { r.result with completed } } := by
  obtain ⟨completed, hretain⟩ := consumeAll_retain ⟨rfl, rfl⟩ retain [] h.read
  refine ⟨completed, hretain, { h.past with }, { h.accounts with }, h.next, h.bytes, ?_⟩
  intro j hj
  obtain ⟨hspec, hdir, hsource, htracks⟩ := h.writer j hj
  exact ⟨hspec, hdir, hsource, fun hlive => { htracks hlive with }⟩

/-- The records that a run leaves are read to the same digest, whether the completed effects are
retained or not. -/
theorem World.Starts.accepted {events : List Event} {d : Directory}
    (hstart : w.Starts cwd spec sourceDigest)
    (hutf : ∀ event ∈ events, event.Utf8 spec.operation)
    (hd : (w.run cwd spec sourceDigest events).directory = d) :
    ∃ digest, ∀ retain, ∃ report, Maintenance.readRecords cwd spec d.identity sourceDigest
      d.files.length retain d.files = .ok report ∧ report.journalDigest = digest := by
  obtain ⟨hid, hsrc, r₀, h₀⟩ := hstart.consistent
  obtain ⟨r, h⟩ := h₀.run hid hsrc hutf
  subst hd
  refine ⟨r.result.journalDigest, fun retain => ?_⟩
  obtain ⟨completed, h'⟩ := h.retained retain
  exact ⟨_, h'.readRecords hid hsrc, rfl⟩

/-- In every run, the reader accepts what is on disk and reports the history of the run, which is
also the account of a usable object. An object resumed from there with the reported digest answers
every list of calls as the object it replaces, and leaves the same files. -/
theorem journal_runs_agree {events : List Event} (hstart : w.Starts cwd spec sourceDigest)
    (hutf : ∀ event ∈ events, event.Utf8 spec.operation) (retain : Bool) :
    let w' := w.run cwd spec sourceDigest events
    ∃ report, EffectJournal.inspect cwd spec sourceDigest retain w'.directory = .ok report ∧
      Reports w' report ∧
      ∀ j, w'.journal = some j → j.failed = false → j.isSealed = false →
        ∃ j', EffectJournal.resume cwd spec sourceDigest report.journalDigest w'.directory =
            .ok j' ∧
          ∀ ops, j'.performAll w'.directory ops = j.performAll w'.directory ops := by
  intro w'
  obtain ⟨hid, hsrc, r₀, h₀⟩ := hstart.consistent
  obtain ⟨r, h⟩ := h₀.run hid hsrc hutf
  obtain ⟨completed, h'⟩ := h.retained retain
  refine ⟨_, inspect_of_readRecords (h'.readRecords hid hsrc), h'.reports, ?_⟩
  intro j hj hlive hopen
  have ht := (h.writer j hj).2.2.2 hlive
  refine ⟨_, h.resumed hid hsrc hj hlive hopen ht.lastDigest.symm, fun ops =>
    EffectJournal.Alike.performAll ?_ _ ops⟩
  exact ⟨r.pendingSequence, rfl, fun hp => (ht.pendingSequence hp).symm⟩

end Runs

/-! ## Details that are not UTF-8 -/

section Unreadable

variable {cwd : Path} {spec : TransactionSpec} {sourceDigest : Bytes} {w : World} {retain : Bool}
  {r : RecordReader} {j : EffectJournal}

/-- The file that an object in step with the directory reads before it writes. -/
theorem Consistent.read_last (h : Consistent cwd spec sourceDigest w retain r) :
    ∃ text o, w.directory.read (filename (r.result.nextSequence - 1)) maximumRecordBytes =
        .ok text ∧ Decodes text (.object o) ∧
      (Value.object o).getString "digest" = .ok r.result.journalDigest := by
  have hlen := h.length
  have hne : w.directory.files ≠ [] := by
    intro he
    rw [he] at hlen
    exact h.past.started hlen
  obtain ⟨xs, e, hxs⟩ := (List.eq_nil_or_concat' w.directory.files).resolve_left hne
  have hread := h.read
  rw [hxs] at hread hlen
  have hlive : (freshReader spec w.directory.identity sourceDigest (xs ++ [e]).length
    retain).Live := ⟨rfl, rfl⟩
  obtain ⟨p, hp, he⟩ := (RecordReader.consumeAll_append hlive).mp hread
  obtain ⟨hs, hn⟩ := RecordReader.consumeAll_frame hlive hp
  obtain ⟨o, rec, hdec, -, hdigest, hlinks⟩ :=
    consumeRecord_last (consumeAll_singleton (hlive.of_same hs) he)
  have hn' : p.result.nextSequence = xs.length := hn.trans (Nat.zero_add _)
  have hlast : e.1 = filename (r.result.nextSequence - 1) := by
    rw [hlinks.named, hn', hlen, List.length_append]
    rfl
  have hbound : xs.length < 10 ^ 20 := by
    have hmax : r.result.nextSequence ≤ 200002 := h.past.bounded
    rw [hlen, List.length_append, List.length_singleton] at hmax
    omega
  have hother : ∀ x ∈ xs, ¬(x.1 == filename (r.result.nextSequence - 1)) = true := by
    intro x hx heq
    obtain ⟨n, -, hlt, hname⟩ := (pairwise_of_consumeAll hlive hp (by
      show 0 + xs.length < 10 ^ 20
      omega)).1 x hx
    have hlt' : n < xs.length := Nat.lt_of_lt_of_le hlt (Nat.zero_add _).le
    have := filename_lt hbound hlt'
    rw [← hname, beq_iff_eq.mp heq, ← hlast, hlinks.named, hn'] at this
    exact List.lt_irrefl _ this
  refine ⟨e.2, o, ?_, hdec, hdigest⟩
  rw [Directory.read, hxs, List.find?_append, List.find?_eq_none.mpr hother, Option.none_or,
    List.find?_singleton, hlast, beq_self_eq_true, if_pos rfl]
  exact if_neg (Nat.not_lt.mpr hdec.bounded)

/-- An object in step with the directory appends every record that fits. -/
theorem Consistent.persist (h : Consistent cwd spec sourceDigest w retain r)
    (hj : w.journal = some j) (hfits : j.Fits phase details) :
    j.persist w.directory .none phase details =
      ⟨j.append w.directory phase details, j.recorded phase details, .ok ()⟩ := by
  obtain ⟨-, hdir, -, htracks⟩ := h.writer j hj
  have ht := htracks hfits.usable
  have hcheck : j.checkPersist w.directory .none phase details = .ok () := by
    obtain ⟨text, o, hread, hdec, hdigest⟩ := h.read_last
    have hstarted : j.sequence ≠ 0 := ht.sequence ▸ h.past.started
    simp only [EffectJournal.checkPersist, bind_eq_ok, demand_eq_ok, if_pos hstarted,
      demandString_eq_ok, Bool.and_eq_true, decide_eq_true_eq, beq_iff_eq]
    refine ⟨(), by decide, (), hdir.symm, text, ht.sequence ▸ hread, (.object o, 0 + text.length),
      decodeRecordText_eq_ok.mpr ⟨hdec, Nat.zero_le _, rfl⟩, (), ?_, hfits.length, hfits.room⟩
    exact ⟨_, getString_eq_ok.mp hdigest, ht.lastDigest.symm⟩
  have hwrite : w.directory.writeNew (filename j.sequence) (j.recordText phase details) =
      .ok (j.append w.directory phase details) := by
    refine if_neg ?_
    rw [List.contains_iff_mem, List.mem_map]
    rintro ⟨x, hx, hname⟩
    have hlen : j.sequence = w.directory.files.length := ht.sequence.trans h.length
    have hbound : j.sequence < 10 ^ 20 := Nat.lt_trans hfits.numbered (by decide)
    obtain ⟨n, -, hlt, hn⟩ := (pairwise_of_consumeAll ⟨rfl, rfl⟩ h.read (by
      show 0 + w.directory.files.length < 10 ^ 20
      omega)).1 x hx
    have hlt' : n < j.sequence := by
      rw [hlen]
      exact Nat.lt_of_lt_of_le hlt (Nat.zero_add _).le
    have := filename_lt hbound hlt'
    rw [← hn, hname] at this
    exact List.lt_irrefl _ this
  have hopen : (j.failed || j.isSealed || decide (maximumRecords ≤ j.sequence)) = false := by
    rw [hfits.usable, hfits.unsealed, decide_eq_false (Nat.not_le.mpr hfits.numbered)]
    rfl
  rw [EffectJournal.persist, hopen, hcheck, hwrite]
  rfl

theorem EffectJournal.recorded_bytes (j : EffectJournal) (phase : Bytes) (details : Value) :
    (j.recorded phase details).bytes = j.bytes + (j.recordText phase details).length :=
  rfl

/-- A call that passes its checks makes its record durable if the record fits. -/
theorem Consistent.recorded {p : Phase} {n : Nat} {account : EffectJournal → EffectJournal}
    (h : Consistent cwd spec sourceDigest w retain r) (hj : w.journal = some j)
    (hfits : j.Fits phase details) (hop : j.phaseOf op = some p)
    (hperform : j.perform w.directory op =
      { j with pendingSequence := n }.persistThen w.directory .none phase details account)
    (haccount : account ({ j with pendingSequence := n }.recorded phase details) =
      (j.recorded phase details).settle j.sequence p) :
    w.step cwd spec sourceDigest (.call op) =
      { directory := j.append w.directory phase details
        journal := some ((j.recorded phase details).settle j.sequence p)
        history := w.history ++ [p] } := by
  have hlonger : (j.append w.directory phase details).files.length ≠
      w.directory.files.length := by
    rw [EffectJournal.append, List.length_append, List.length_singleton]
    omega
  rw [World.step, hj]
  dsimp only
  rw [hperform, EffectJournal.persistThen, EffectJournal.persist_renumber, h.persist hj hfits]
  dsimp only
  rw [if_neg hlonger, hop, ← haccount]
  rfl

/-- The object after an effect was announced. -/
def EffectJournal.begun (j : EffectJournal) (kind : EffectKind) (details : Value) : EffectJournal :=
  (j.recorded (ascii "intent") (intentDetails kind.name details)).settle j.sequence
    (.intent kind details)

/-- The object after its effect was completed. -/
def EffectJournal.completed (j : EffectJournal) (kind : EffectKind)
    (outcome resultDigest : Bytes) : EffectJournal :=
  (j.recorded (ascii "complete")
    (completionDetails j.pendingSequence kind outcome resultDigest)).settle j.sequence
    (.complete j.pendingSequence kind outcome resultDigest)

theorem EffectJournal.completed_bytes (j : EffectJournal) (kind : EffectKind)
    (outcome resultDigest : Bytes) : (j.completed kind outcome resultDigest).bytes =
      j.bytes + (j.recordText (ascii "complete")
        (completionDetails j.pendingSequence kind outcome resultDigest)).length :=
  rfl

theorem Consistent.begin {details : Document} (h : Consistent cwd spec sourceDigest w retain r)
    (hj : w.journal = some j) (hidle : j.pendingKind = none)
    (hfits : j.Fits (ascii "intent") (EffectJournal.intentDetails k.name details.1))
    (hval : validateEffect j.spec.operation k.name details.1 = .ok k) :
    w.step cwd spec sourceDigest (.call (.beginEffect k.name details .none)) =
      { directory := j.append w.directory (ascii "intent")
          (EffectJournal.intentDetails k.name details.1)
        journal := some (j.begun k details.1)
        history := w.history ++ [.intent k details.1] } := by
  refine h.recorded (n := j.sequence) hj hfits ?_ (?_ : _ = EffectJournal.persistThen _ _ _ _ _
    fun j => { j with pendingKind := some k }) rfl
  · rw [EffectJournal.phaseOf, EffectKind.ofName_name]
    rfl
  · rw [EffectJournal.perform, EffectJournal.beginEffect, if_neg (by rw [hidle]; decide), hval]
    rfl

theorem Consistent.complete {outcome resultDigest : Bytes} {u : Unit}
    (h : Consistent cwd spec sourceDigest w retain r) (hj : w.journal = some j)
    (hpending : j.pendingKind = some k)
    (hfits : j.Fits (ascii "complete")
      (EffectJournal.completionDetails j.pendingSequence k outcome resultDigest))
    (hval : validateCompletion k outcome resultDigest = .ok u) :
    w.step cwd spec sourceDigest (.call (.completeEffect outcome resultDigest .none)) =
      { directory := j.append w.directory (ascii "complete")
          (EffectJournal.completionDetails j.pendingSequence k outcome resultDigest)
        journal := some (j.completed k outcome resultDigest)
        history := w.history ++ [.complete j.pendingSequence k outcome resultDigest] } := by
  refine h.recorded (n := j.pendingSequence) hj hfits ?_ (?_ : _ =
    EffectJournal.persistThen _ _ _ _ _ fun j => { j with pendingKind := none }) rfl
  · rw [EffectJournal.phaseOf, hpending]
    rfl
  · rw [EffectJournal.perform, EffectJournal.completeEffect]
    split
    · next hnone =>
      rw [hpending] at hnone
      cases hnone
    · next k' hk =>
      rw [hpending] at hk
      cases hk
      rw [hval]
      rfl

theorem Consistent.close (h : Consistent cwd spec sourceDigest w retain r)
    (hj : w.journal = some j) (hidle : j.pendingKind = none)
    (hfits : j.Fits (ascii "sealed") .null) :
    w.step cwd spec sourceDigest (.call (.sealJournal .none)) =
      { directory := j.append w.directory (ascii "sealed") .null
        journal := some ((j.recorded (ascii "sealed") .null).settle j.sequence .closed)
        history := w.history ++ [.closed] } := by
  refine h.recorded (n := j.pendingSequence) hj hfits rfl (?_ : _ =
    EffectJournal.persistThen _ _ _ _ _ fun j => { j with isSealed := true }) rfl
  rw [EffectJournal.perform, EffectJournal.sealJournal, if_neg (by rw [hidle]; decide)]
  rfl

/-- An intent fits whenever there is room for a record of the largest size. -/
theorem intent_fits {kind : Bytes} (hj : j.Sound) (hlive : j.failed = false)
    (hopen : j.isSealed = false) (hroom : j.sequence < maximumRecords)
    (hbytes : j.bytes ≤ maximumJournalBytes - maximumRecordBytes)
    (h : validateEffect j.spec.operation kind details = .ok k) :
    j.Fits (ascii "intent") (EffectJournal.intentDetails kind details) := by
  obtain ⟨rfl, hlen, -⟩ := validateEffect_eq_ok.mp h
  have hkind : (canonical (.string k.name)).length ≤ 128 := by cases k <;> decide
  have hnd : (["kind", "effect"].map ascii).Nodup := by decide
  have hle := @canonical_ofList_length_le [(ascii "kind", .string k.name),
    (ascii "effect", details)] hnd
  have hkeys : (escaped (ascii "kind")).length = 6 ∧ (escaped (ascii "effect")).length = 8 :=
    ⟨rfl, rfl⟩
  rw [EffectJournal.intentDetails]
  simp only [List.map_cons, List.map_nil, List.sum_cons, List.sum_nil, hkeys] at hle
  exact hj.fits hlive hopen hroom hbytes (by decide) (by omega)

/-- The calls for one effect, and the seal by a new process that resumes after a crash. -/
def effectEvents (j : EffectJournal) (kind : EffectKind) (details : Document)
    (outcome resultDigest : Bytes) : List Event :=
  [.call (.beginEffect kind.name details .none),
    .call (.completeEffect outcome resultDigest .none), .crash,
    .resume ((j.begun kind details.1).completed kind outcome resultDigest).lastDigest,
    .call (.sealJournal .none)]

/-- An effect, a crash and the seal leave three more records, whoever writes them. -/
theorem Consistent.effect_run {details : Document} {outcome resultDigest : Bytes} {u : Unit}
    (h : Consistent cwd spec sourceDigest w false r)
    (hid : validIdentifier spec.transactionId = true) (hsrc : validSha256 sourceDigest = true)
    (hj : w.journal = some j) (hlive : j.failed = false) (hopen : j.isSealed = false)
    (hidle : j.pendingKind = none) (hroom : j.sequence + 2 < maximumRecords)
    (hbytes : j.bytes ≤ maximumJournalBytes - 3 * maximumRecordBytes)
    (hval : validateEffect spec.operation k.name details.1 = .ok k)
    (hutf : AllStrings (fun s => validUtf8 s = true) details.1)
    (hcompletion : validateCompletion k outcome resultDigest = .ok u)
    (hshort : (canonical (EffectJournal.completionDetails j.sequence k outcome
      resultDigest)).length ≤ 28672) :
    let begun := j.begun k details.1
    let completed := begun.completed k outcome resultDigest
    let w' := w.run cwd spec sourceDigest (effectEvents j k details outcome resultDigest)
    w'.directory = completed.append (begun.append (j.append w.directory (ascii "intent")
        (EffectJournal.intentDetails k.name details.1)) (ascii "complete")
        (EffectJournal.completionDetails j.sequence k outcome resultDigest)) (ascii "sealed")
          .null ∧
      w'.history = w.history ++ [.intent k details.1, .complete j.sequence k outcome resultDigest,
        .closed] := by
  intro begun completed w'
  have hmax : maximumRecordBytes = 32768 := rfl
  have hmax' : maximumJournalBytes = 67108864 := rfl
  rw [← (h.writer j hj).1] at hval
  have hfits := intent_fits (h.sound hid hsrc hj hlive) hlive hopen (by omega) (by omega) hval
  obtain ⟨r₁, h₁⟩ := h.call hid hsrc
    (show (Operation.beginEffect k.name details .none).Utf8 spec.operation from fun _ => hutf)
  have hbegin := h.begin hj hidle hfits hval
  rw [hbegin] at h₁
  have hbegun : begun.bytes ≤ j.bytes + maximumRecordBytes :=
    Nat.add_le_add_left hfits.length j.bytes
  have hfits₁ : begun.Fits (ascii "complete")
      (EffectJournal.completionDetails begun.pendingSequence k outcome resultDigest) :=
    (h₁.sound hid hsrc rfl hlive).fits hlive hopen (by show j.sequence + 1 < _; omega)
      (hbegun.trans (by omega)) (by decide) hshort
  obtain ⟨r₂, h₂⟩ := h₁.call hid hsrc
    (show (Operation.completeEffect outcome resultDigest .none).Utf8 spec.operation from trivial)
  have hcomplete := h₁.complete rfl rfl hfits₁ hcompletion
  rw [hcomplete] at h₂
  have hcompleted : completed.bytes ≤ j.bytes + 2 * maximumRecordBytes := by
    have hlength := hfits₁.length
    rw [EffectJournal.completed_bytes]
    omega
  have hrecovered := h₂.recovered hid hsrc rfl hlive hopen
  obtain ⟨_, hcrashed⟩ := h₂.step hid hsrc (show Event.crash.Utf8 spec.operation from trivial)
  obtain ⟨r₃, h₃⟩ := hcrashed.step hid hsrc
    (show (Event.resume completed.lastDigest).Utf8 spec.operation from trivial)
  rw [hrecovered] at h₃
  have hfits₂ : EffectJournal.Fits { completed with pendingSequence := r₂.pendingSequence }
      (ascii "sealed") .null :=
    (h₃.sound hid hsrc rfl hlive).fits hlive hopen (by show j.sequence + 2 < _; omega)
      (hcompleted.trans (by omega)) (by decide) (by decide)
  have hclose := h₃.close rfl rfl hfits₂
  show (w.run cwd spec sourceDigest _).directory = _ ∧ (w.run cwd spec sourceDigest _).history = _
  rw [World.run, effectEvents, List.foldl_cons, hbegin, List.foldl_cons, hcomplete,
    List.foldl_cons, List.foldl_cons, hrecovered, List.foldl_cons, hclose, List.foldl_nil]
  refine ⟨rfl, ?_⟩
  rw [List.append_assoc, List.append_assoc]
  rfl

/-- `inspect` accepts a directory only if each of its files decodes. -/
theorem decodes_of_inspect {d : Directory}
    (h : EffectJournal.inspect cwd spec sourceDigest retain d = .ok report) :
    ∀ f ∈ d.files, ∃ v, Decodes f.2 v := by
  have hfiles : ∀ {xs : List (Bytes × Bytes)} {r r' : RecordReader}, r.Live →
      EffectJournal.inspectFiles cwd r xs = .ok r' → ∀ f ∈ xs, ∃ v, Decodes f.2 v := by
    intro xs
    induction xs with
    | nil => exact fun _ _ f hf => absurd hf List.not_mem_nil
    | cons entry rest ih =>
      intro r r' hl hr
      rw [EffectJournal.inspectFiles] at hr
      split at hr
      · cases hr
      have hfail : (r.failed || r.finished) = false := by rw [hl.1, hl.2]; rfl
      rw [RecordReader.consume, hfail, if_neg Bool.false_ne_true] at hr
      cases hc : r.consumeRecord cwd entry.1 entry.2 with
      | error e =>
        rw [hc] at hr
        cases hr
      | ok q =>
        rw [hc] at hr
        obtain ⟨value, _, _, hdec, -⟩ := RecordReader.consumeRecord_eq_ok.mp hc
        intro f hf
        rcases List.mem_cons.mp hf with rfl | hf
        · exact ⟨value, hdec⟩
        · exact ih (hl.of_same (RecordReader.consumeRecord_frame hc).1) hr f hf
  simp only [EffectJournal.inspect, bind_eq_ok, RecordReader.create, pure, Except.pure,
    Except.ok.injEq] at h
  obtain ⟨-, -, -, -, -, -, _, ⟨-, -, rfl⟩, q, hq, -⟩ := h
  intro f hf
  exact hfiles ⟨rfl, rfl⟩ hq f ((List.mem_insertionSort _).mpr hf)

/-- A record whose details are not UTF-8 does not decode. -/
theorem validUtf8_of_decodes {v : Value} (hd : WellFormed details)
    (h : Decodes (j.recordText phase details) v) :
    AllStrings (fun s => validUtf8 s = true) details := by
  have hparse := h.parsed
  rw [EffectJournal.recordText_eq] at hparse
  have hallow := ((parse_encodes_line (encodes_canonical
    (EffectJournal.wellFormed_recordValue hd))).eq_of_ok hparse).1.2.2.2
  have hget : (j.recordValue phase details).get "details" = .ok details :=
    get_ofList EffectJournal.nodup_allMembers rfl
  exact (allStrings_get hallow hget).mono fun s hs => hs.2

/-- An intent whose details are not UTF-8 passes `validate_effect` and becomes durable, and from
then on the directory cannot be inspected. -/
theorem Consistent.unreadable {details : Document}
    (h : Consistent cwd spec sourceDigest w retain r)
    (hid : validIdentifier spec.transactionId = true) (hsrc : validSha256 sourceDigest = true)
    (hj : w.journal = some j) (hlive : j.failed = false) (hopen : j.isSealed = false)
    (hidle : j.pendingKind = none) (hroom : j.sequence < maximumRecords)
    (hbytes : j.bytes ≤ maximumJournalBytes - maximumRecordBytes)
    (hval : validateEffect spec.operation k.name details.1 = .ok k)
    (hnot : ¬AllStrings (fun s => validUtf8 s = true) details.1) :
    let w' := w.step cwd spec sourceDigest (.call (.beginEffect k.name details .none))
    w'.directory.files.length = w.directory.files.length + 1 ∧
      ∀ retain' report,
        EffectJournal.inspect cwd spec sourceDigest retain' w'.directory ≠ .ok report := by
  intro w'
  have hnd : (["kind", "effect"].map ascii).Nodup := by decide
  have hspec := (h.writer j hj).1
  have hval' : validateEffect j.spec.operation k.name details.1 = .ok k := hspec ▸ hval
  have hfits := intent_fits (h.sound hid hsrc hj hlive) hlive hopen hroom hbytes hval'
  have hdir : w'.directory =
      j.append w.directory (ascii "intent") (EffectJournal.intentDetails k.name details.1) := by
    have hstep := h.begin hj hidle hfits hval'
    exact congrArg World.directory hstep
  refine ⟨?_, fun retain' report hinspect => hnot ?_⟩
  · rw [hdir, EffectJournal.append, List.length_append, List.length_singleton]
  · obtain ⟨v, hdec⟩ := decodes_of_inspect hinspect (filename j.sequence, _) (by
      rw [hdir, EffectJournal.append]
      exact List.mem_append_right _ (List.mem_singleton_self _))
    have hwf : WellFormed (EffectJournal.intentDetails k.name details.1) := by
      refine wellFormed_ofList (by exact hnd) ?_
      simp only [List.forall_mem_cons, List.not_mem_nil, false_implies, implies_true, and_true]
      exact ⟨trivial, details.2⟩
    have hget : (EffectJournal.intentDetails k.name details.1).get "effect" = .ok details.1 :=
      get_ofList (by exact hnd) rfl
    exact allStrings_get (validUtf8_of_decodes hwf hdec) hget

end Unreadable

/-! ## The sample journal -/

/-- The object of the sample after its constructor returned. -/
def sampleOpened : EffectJournal :=
  (EffectJournal.opening sampleSpec sampleContext sampleDirectory).recorded (ascii "context")
    (EffectJournal.contextDetails sampleContext sampleDirectory.identity)

def sampleWorld : World :=
  { directory := (EffectJournal.opening sampleSpec sampleContext sampleDirectory).append
      sampleDirectory (ascii "context")
      (EffectJournal.contextDetails sampleContext sampleDirectory.identity)
    journal := some sampleOpened }

theorem EffectJournal.opening_bytes (spec : TransactionSpec) (sourceContext : Bytes)
    (d : Directory) : (opening spec sourceContext d).bytes = 0 :=
  rfl

theorem sampleOpened_bytes : sampleOpened.bytes ≤ maximumRecordBytes := by
  rw [sampleOpened, EffectJournal.recorded_bytes, EffectJournal.opening_bytes, Nat.zero_add]
  exact sample_fits.length

theorem opening_persist {spec : TransactionSpec} {sourceContext : Bytes} {d : Directory}
    (hempty : d.files = [])
    (hfits : (EffectJournal.opening spec sourceContext d).Fits (ascii "context")
      (EffectJournal.contextDetails sourceContext d.identity)) :
    let j := EffectJournal.opening spec sourceContext d
    let details := EffectJournal.contextDetails sourceContext d.identity
    j.persist d .none (ascii "context") details =
      ⟨j.append d (ascii "context") details, j.recorded (ascii "context") details, .ok ()⟩ := by
  intro j details
  have hcheck : j.checkPersist d .none (ascii "context") details = .ok () := by
    have hzero : j.sequence = 0 := rfl
    have hdir : d.identity = j.directoryIdentity := rfl
    simp only [EffectJournal.checkPersist, bind_eq_ok, demand_eq_ok, hzero, ne_eq, not_true,
      if_false, Bool.and_eq_true, decide_eq_true_eq, beq_iff_eq, hdir]
    exact ⟨(), by decide, (), trivial, hfits.length, hfits.room⟩
  have hwrite : d.writeNew (filename j.sequence) (j.recordText (ascii "context") details) =
      .ok (j.append d (ascii "context") details) := by
    refine if_neg ?_
    rw [hempty]
    exact Bool.false_ne_true
  have hopen : (j.failed || j.isSealed || decide (maximumRecords ≤ j.sequence)) = false := by
    rw [hfits.usable, hfits.unsealed, decide_eq_false (Nat.not_le.mpr hfits.numbered)]
    rfl
  rw [EffectJournal.persist, hopen, hcheck, hwrite]
  rfl

theorem sampleWorld_starts :
    sampleWorld.Starts ⟨ascii "/"⟩ sampleSpec (sha256 sampleContext) := by
  have hpersist := opening_persist (d := sampleDirectory) rfl sample_fits
  refine ⟨sampleContext, sampleDirectory, .none, _, rfl,
    EffectJournal.create_eq_ok.mpr ⟨sampleContext_valid, rfl⟩, ?_, ?_, ?_⟩
  · rw [hpersist]
    exact List.cons_ne_nil _ _
  · rw [hpersist]
    rfl
  · rw [hpersist]
    rfl

/-- The removal of a directory of this name from the target of the operation. -/
def sampleRemoval (name : Bytes) : Document :=
  ⟨.object (ByteMap.ofList [(ascii "root_role", .string (ascii "operation_target")),
    (ascii "relative_path", .string name),
    (ascii "native_identity", .string (hexId 0 ++ 0x3a :: hexId 1))]), by
    refine wellFormed_ofList (by
      show (["root_role", "relative_path", "native_identity"].map ascii).Nodup
      decide) ?_
    simp only [List.forall_mem_cons, List.not_mem_nil, false_implies, implies_true, and_true]
    exact ⟨trivial, trivial, trivial⟩⟩

theorem sampleRemoval_valid (name : Bytes) (h : name = ascii "d" ∨ name = [0xff]) :
    validateEffect sampleSpec.operation EffectKind.removeDirectory.name (sampleRemoval name).1 =
      .ok .removeDirectory := by
  rcases h with rfl | rfl <;> decide +kernel

theorem sampleRemoval_utf8 :
    AllStrings (fun s => validUtf8 s = true) (sampleRemoval (ascii "d")).1 := by
  refine allStrings_ofList (by
    show (["root_role", "relative_path", "native_identity"].map ascii).Nodup
    decide) ?_
  simp only [List.forall_mem_cons, List.not_mem_nil, false_implies, implies_true, and_true,
    AllStrings]
  decide +kernel

/-- The events of the sample: a removal, a crash and the seal by a new process. -/
def sampleEvents : List Event :=
  effectEvents sampleOpened .removeDirectory (sampleRemoval (ascii "d")) (ascii "applied") []

/-- The records after the context, by phase. -/
def samplePhases : List Phase :=
  [.intent .removeDirectory (sampleRemoval (ascii "d")).1,
    .complete sampleOpened.sequence .removeDirectory (ascii "applied") [], .closed]

theorem Reports.of_history {w : World} {history : List Phase} (h : Reports w report)
    (hw : w.history = history) : report.completedEffects = (ledger history).completed ∧
      report.nextSequence = history.length + 1 ∧ report.isSealed = (ledger history).isSealed := by
  subst hw
  exact ⟨h.completed, h.next, h.isSealed⟩

theorem ledger_samplePhases : ledger samplePhases = { completed := 1, isSealed := true } :=
  rfl

/-- The directory that the sample run leaves. -/
def sampleSealed : Directory :=
  let begun := sampleOpened.begun .removeDirectory (sampleRemoval (ascii "d")).1
  let completed := begun.completed .removeDirectory (ascii "applied") []
  completed.append (begun.append (sampleOpened.append sampleWorld.directory (ascii "intent")
    (EffectJournal.intentDetails EffectKind.removeDirectory.name (sampleRemoval (ascii "d")).1))
    (ascii "complete") (EffectJournal.completionDetails sampleOpened.sequence .removeDirectory
      (ascii "applied") [])) (ascii "sealed") .null

theorem sampleOpened_room : sampleOpened.sequence + 2 < maximumRecords := by
  show 3 < 200002
  decide

set_option maxRecDepth 100000 in
theorem sampleCompletion_short : (canonical (EffectJournal.completionDetails sampleOpened.sequence
    .removeDirectory (ascii "applied") [])).length ≤ 28672 := by
  show (canonical (EffectJournal.completionDetails 1 .removeDirectory (ascii "applied")
    [])).length ≤ 28672
  decide +kernel

theorem sampleRun :
    let w := sampleWorld.run ⟨ascii "/"⟩ sampleSpec (sha256 sampleContext) sampleEvents
    w.directory = sampleSealed ∧ w.history = samplePhases := by
  obtain ⟨hid, hsrc, r, h⟩ := sampleWorld_starts.consistent
  have hbytes : sampleOpened.bytes ≤ maximumJournalBytes - 3 * maximumRecordBytes :=
    sampleOpened_bytes.trans (by decide)
  have hvalid : validateCompletion .removeDirectory (ascii "applied") [] = .ok () := by decide
  exact h.effect_run hid hsrc rfl rfl rfl rfl sampleOpened_room hbytes
    (sampleRemoval_valid _ (.inl rfl)) sampleRemoval_utf8 hvalid sampleCompletion_short

theorem sampleEvents_utf8 : ∀ event ∈ sampleEvents, event.Utf8 sampleSpec.operation := by
  simp only [sampleEvents, effectEvents, List.forall_mem_cons, List.not_mem_nil, false_implies,
    implies_true, and_true, Event.Utf8, Operation.Utf8, sampleRemoval_utf8]

/-- The whole run is read back: one completed effect, and the seal. -/
theorem sampleWorld_agrees :
    let w := sampleWorld.run ⟨ascii "/"⟩ sampleSpec (sha256 sampleContext) sampleEvents
    ∃ report, EffectJournal.inspect ⟨ascii "/"⟩ sampleSpec (sha256 sampleContext) false
      w.directory = .ok report ∧ Reports w report ∧ report.completedEffects = 1 ∧
      report.nextSequence = 4 ∧ report.isSealed = true := by
  obtain ⟨report, hreport, hagrees, -⟩ :=
    journal_runs_agree sampleWorld_starts sampleEvents_utf8 false
  obtain ⟨hcompleted, hnext, hsealed⟩ := hagrees.of_history sampleRun.2
  rw [ledger_samplePhases] at hcompleted hsealed
  exact ⟨report, hreport, hagrees, hcompleted, hnext, hsealed⟩

/-- A name that is not UTF-8 becomes durable and makes the journal unreadable. -/
theorem sampleWorld_unreadable :
    sampleWorld.Starts ⟨ascii "/"⟩ sampleSpec (sha256 sampleContext) ∧
    let w := sampleWorld.run ⟨ascii "/"⟩ sampleSpec (sha256 sampleContext)
      [.call (.beginEffect EffectKind.removeDirectory.name (sampleRemoval [0xff]) .none)]
    w.directory.files.length = 2 ∧
      ∀ retain report, EffectJournal.inspect ⟨ascii "/"⟩ sampleSpec (sha256 sampleContext) retain
        w.directory ≠ .ok report := by
  refine ⟨sampleWorld_starts, ?_⟩
  obtain ⟨hid, hsrc, r, h⟩ := sampleWorld_starts.consistent
  have hnot : ¬AllStrings (fun s => validUtf8 s = true) (sampleRemoval [0xff]).1 := by
    intro hall
    have hget : (sampleRemoval [0xff]).1.get "relative_path" = .ok (.string [0xff]) :=
      get_ofList (by
        show (["root_role", "relative_path", "native_identity"].map ascii).Nodup
        decide) rfl
    have hbyte : validUtf8 [0xff] = true := allStrings_get hall hget
    exact absurd hbyte (by decide)
  have hone : sampleWorld.directory.files.length = 1 := rfl
  obtain ⟨hlen, hrest⟩ := h.unreadable hid hsrc rfl rfl rfl rfl (by show 1 < 200002; decide)
    (sampleOpened_bytes.trans (by decide)) (sampleRemoval_valid _ (.inr rfl)) hnot
  rw [hone] at hlen
  exact ⟨hlen, hrest⟩

end Usk.Maintenance
