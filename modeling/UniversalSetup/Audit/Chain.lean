import UniversalSetup.Audit.Record
import UniversalSetup.Base.Disk

/-!
# Audit chains

A chain is a directory of records, one for each event, named by the sequence number of the event.
The reader takes the records in the order of their names; the number, the name and the digest of the
previous event have to agree at every record. `Linked` is what the reader has then seen.
-/

namespace Usk.Audit

open Json

variable {n : Nat} {previous : Bytes} {events : List AuditEvent}

/-! ## The repository -/

/-- A repository. The constructor brings the root into normal form. -/
structure AuditRepository where
  root : Path
  normal : root.IsNormal

namespace AuditRepository

variable (repository : AuditRepository)

def chains : Path :=
  repository.root.join ⟨ascii "chains"⟩

/-- `root_ / "chains" / chain_id`. -/
def chainRoot (chainId : Bytes) : Path :=
  repository.chains.join ⟨chainId⟩

end AuditRepository

def AuditRepository.initializeChain (repository : AuditRepository) (disk : Disk) (chainId : Bytes)
    (device inode : UInt64) : Result Disk := do
  demand (validIdentifier chainId) "audit chain id is invalid"
  disk.requireSafeDirectory repository.chains
  disk.createDirectoryExclusive repository.chains chainId device inode

/-! ## Reading -/

/-- `fs::directory_iterator` on a directory below another one. The system goes through the names one
by one, so the other directory has to be there even if the name leads back out of it. -/
def directoryEntries (disk : Disk) (parent : Path) (name : Bytes) :
    Result (List (Bytes × Node)) := do
  disk.requireSafeDirectory parent
  let directory := parent.join ⟨name⟩
  demand (decide (directory.native.length < Disk.pathMax))
    "directory iterator cannot open directory"
  pure (disk.list directory.lexicallyNormal)

/-- The name of a regular file of the chain. -/
def recognized (entry : Bytes × Node) : Bool :=
  (match entry.2 with
    | .file _ _ => true
    | _ => false) &&
  entry.1.length == 31 && entry.1.drop 20 == ascii ".event.json" && (entry.1.take 20).all isDigit

/-- The loop over the directory, after it has found `count` records. -/
def collectNames (maximumEvents : UInt64) : List (Bytes × Node) → Nat → Result (List Bytes)
  | [], _ => .ok []
  | entry :: rest, count => do
    demand (recognized entry) "audit chain contains an unrecognized or unsafe entry"
    demand (decide (count < maximumEvents.toNat)) "audit chain exceeds the admitted event bound"
    let names ← collectNames maximumEvents rest (count + 1)
    pure (entry.1 :: names)

/-- `std::sort`. -/
def sortNames (names : List Bytes) : List Bytes :=
  names.insertionSort fun left right => left ≤ right

/-- One turn of the loop over the records. -/
def readEvent (read : Bytes → Result Bytes) (chainId name : Bytes) (index : Nat)
    (previous : Bytes) : Result AuditEvent := do
  let text ← read name
  decodeAuditChainRecord text chainId name (UInt64.ofNat index) previous

/-- The loop over the records. -/
def readEvents (read : Bytes → Result Bytes) (chainId : Bytes) :
    List Bytes → Nat → Bytes → Result (List AuditEvent)
  | [], _, _ => .ok []
  | name :: rest, index, previous => do
    let event ← readEvent read chainId name index previous
    let events ← readEvents read chainId rest (index + 1) event.eventDigest
    pure (event :: events)

namespace AuditRepository

variable (repository : AuditRepository)

/-- The text of a record. `read_stable_text` normalizes the path. -/
def readRecord (disk : Disk) (chainId name : Bytes) : Result Bytes :=
  disk.readStableText ((repository.chainRoot chainId).join ⟨name⟩).lexicallyNormal maximumEventBytes

def readAndValidateChainBounded (disk : Disk) (chainId : Bytes) (maximumEvents : UInt64) :
    Result (List AuditEvent) := do
  demand (maximumEvents != 0) "audit event read bound must be positive"
  demand (validIdentifier chainId) "audit chain id is invalid"
  disk.requireSafeDirectory (repository.chainRoot chainId).lexicallyNormal
  let entries ← directoryEntries disk repository.chains chainId
  let names ← collectNames maximumEvents entries 0
  readEvents (repository.readRecord disk chainId) chainId (sortNames names) 0 []

/-- `std::numeric_limits<std::size_t>::max()`. -/
def unbounded : UInt64 := UInt64.ofNat (2 ^ 64 - 1)

def readAndValidateChain (disk : Disk) (chainId : Bytes) : Result (List AuditEvent) :=
  repository.readAndValidateChainBounded disk chainId unbounded

end AuditRepository

/-! ## Appending -/

/-- The event that follows a chain. -/
def nextEvent (chainId : Bytes) (chain : List AuditEvent) (input : AuditInput) : AuditEvent :=
  AuditEvent.withDigest
    { input with
      eventId := chainId ++ 0x2e :: decimal (UInt64.ofNat chain.length).toNat
      eventDigest := []
      auditChainId := chainId
      sequence := UInt64.ofNat chain.length
      previousEventDigest := (chain.getLast?.map AuditEvent.eventDigest).getD [] }

namespace AuditRepository

variable (repository : AuditRepository)

def recordPath (chainId : Bytes) (sequence : UInt64) : Path :=
  (repository.chainRoot chainId).join ⟨filename sequence⟩

def writeRecord (disk : Disk) (chainId : Bytes) (event : AuditEvent) : Result Disk :=
  disk.writeNewDurableText (repository.recordPath chainId event.sequence) (recordText event)

def append (disk : Disk) (chainId : Bytes) (input : AuditInput) : Result (AuditEvent × Disk) := do
  validateInput input
  let chain ← repository.readAndValidateChain disk chainId
  let event := nextEvent chainId chain input
  let disk ← repository.writeRecord disk chainId event
  pure (event, disk)

end AuditRepository

/-! ## The names of the records -/

/-- The name of the record at an index. -/
def recordName (index : Nat) : Bytes :=
  filename (UInt64.ofNat index)

theorem filename_lt {a b : UInt64} (h : a.toNat < b.toNat) : filename a < filename b := by
  have hwidth : b.toNat < 10 ^ 20 := b.toNat_lt.trans (by decide)
  exact append_lt_append (by rw [padded_length, padded_length]) (padded_lt hwidth h) _ _

theorem recordName_lt {a b : Nat} (hb : b < 2 ^ 64) (h : a < b) : recordName a < recordName b := by
  refine filename_lt ?_
  rw [UInt64.toNat_ofNat_of_lt' hb, UInt64.toNat_ofNat_of_lt' (h.trans hb)]
  exact h

theorem recordName_injective {a b : Nat} (ha : a < 2 ^ 64) (hb : b < 2 ^ 64)
    (h : recordName a = recordName b) : a = b := by
  rcases Nat.lt_trichotomy a b with hlt | heq | hlt
  · have hname := recordName_lt hb hlt
    rw [h] at hname
    exact absurd hname (List.lt_irrefl _)
  · exact heq
  · have hname := recordName_lt ha hlt
    rw [h] at hname
    exact absurd hname (List.lt_irrefl _)

theorem recordNames_sorted (h : n ≤ 2 ^ 64) :
    ((List.range n).map recordName).Pairwise fun left right => left ≤ right := by
  rw [List.pairwise_map]
  refine List.pairwise_lt_range.imp_of_mem fun {a b} _ hb hlt => ?_
  have hname : recordName a < recordName b := recordName_lt ((List.mem_range.mp hb).trans_le h) hlt
  exact List.le_of_lt hname

theorem nodup_recordNames (h : n ≤ 2 ^ 64) : ((List.range n).map recordName).Nodup := by
  refine List.nodup_range.map_on fun a ha b hb heq => ?_
  exact recordName_injective ((List.mem_range.mp ha).trans_le h) ((List.mem_range.mp hb).trans_le h)
    heq

/-- Sorting puts the names of records in the order of the sequence. -/
theorem sortNames_eq {names : List Bytes} (hn : n ≤ 2 ^ 64)
    (hperm : names.Perm ((List.range n).map recordName)) :
    sortNames names = (List.range n).map recordName := by
  unfold sortNames
  have hsorted := List.pairwise_insertionSort (fun left right : Bytes => left ≤ right) names
  refine ((List.perm_insertionSort _ names).trans hperm).eq_of_pairwise ?_ hsorted
    (recordNames_sorted hn)
  exact fun a b _ _ hab hba => List.le_antisymm hab hba

theorem recognized_record {index : Nat} {node : Node} : recognized (recordName index, node) =
    match node with
    | .file _ _ => true
    | _ => false := by
  have hlength : (padded 20 (UInt64.ofNat index).toNat).length = 20 := padded_length _ _
  have htake : (recordName index).take 20 = padded 20 (UInt64.ofNat index).toNat :=
    List.take_left' hlength
  have hdrop : (recordName index).drop 20 = ascii ".event.json" := List.drop_left' hlength
  have hlong : (recordName index).length = 31 := by
    unfold recordName filename
    rw [List.length_append, hlength]
    decide
  unfold recognized
  rw [htake, hdrop, hlong, isDigit_padded]
  simp

/-! ## What the reader has seen -/

/-- The digest of the last event, or the one before all of them. -/
def lastDigest (events : List AuditEvent) (previous : Bytes) : Bytes :=
  (events.getLast?.map AuditEvent.eventDigest).getD previous

/-- Events that the reader finds one after the other, from an index on. -/
def Linked (read : Bytes → Result Bytes) (chainId : Bytes) :
    List AuditEvent → Nat → Bytes → Prop
  | [], _, _ => True
  | event :: rest, index, previous =>
    readEvent read chainId (recordName index) index previous = .ok event ∧
      Linked read chainId rest (index + 1) event.eventDigest

section Reading

variable {read : Bytes → Result Bytes} {chainId : Bytes}

/-- An event that the reader accepts at an index. -/
theorem readEvent_eq_ok {name : Bytes} {index : Nat} {event : AuditEvent} :
    readEvent read chainId name index previous = .ok event ↔
      ∃ text, read name = .ok text ∧ decodeAuditEventRecord text = .ok event ∧
        validIdentifier chainId = true ∧ event.auditChainId = chainId ∧
        event.sequence = UInt64.ofNat index ∧
        event.eventId = chainId ++ 0x2e :: decimal (UInt64.ofNat index).toNat ∧
        event.previousEventDigest = previous ∧ name = recordName index := by
  simp only [readEvent, decodeAuditChainRecord, bind_eq_ok, demand_eq_ok, Bool.and_eq_true,
    beq_iff_eq, recordName]
  constructor
  · rintro ⟨text, hread, -, hchain, e, hdecode, -, ⟨⟨⟨⟨hid, hseq⟩, hevent⟩, hprevious⟩, hname⟩, h⟩
    cases h
    exact ⟨text, hread, hdecode, hchain, hid, hseq, hevent, hprevious, hname⟩
  · rintro ⟨text, hread, hdecode, hchain, hid, hseq, hevent, hprevious, hname⟩
    exact ⟨text, hread, (), hchain, event, hdecode, (),
      ⟨⟨⟨⟨hid, hseq⟩, hevent⟩, hprevious⟩, hname⟩, rfl⟩

/-- The loop returns the events that it finds under the names of their indices. -/
theorem readEvents_eq_ok : ∀ {names : List Bytes} {index : Nat} {previous : Bytes}
    {events : List AuditEvent}, readEvents read chainId names index previous = .ok events ↔
      names = (List.range' index events.length).map recordName ∧
        Linked read chainId events index previous
  | [], index, previous, events => by
    cases events with
    | nil => exact ⟨fun _ => ⟨rfl, trivial⟩, fun _ => rfl⟩
    | cons event rest =>
      constructor
      · intro h
        cases h
      · rintro ⟨h, -⟩
        cases h
  | name :: names, index, previous, events => by
    have ih := @readEvents_eq_ok names (index + 1)
    simp only [readEvents, bind_eq_ok]
    cases events with
    | nil =>
      constructor
      · rintro ⟨_, -, _, -, h⟩
        cases h
      · rintro ⟨h, -⟩
        cases h
    | cons event rest =>
      rw [List.length_cons, List.range'_succ, List.map_cons, List.cons.injEq, Linked]
      constructor
      · rintro ⟨e, hevent, es, hrest, h⟩
        cases h
        have hname : name = recordName index := by
          obtain ⟨_, -, -, -, -, -, -, -, hname⟩ := readEvent_eq_ok.mp hevent
          exact hname
        obtain ⟨hnames, hlinked⟩ := ih.mp hrest
        rw [hname] at hevent
        exact ⟨⟨hname, hnames⟩, hevent, hlinked⟩
      · rintro ⟨⟨hname, hnames⟩, hevent, hlinked⟩
        rw [← hname] at hevent
        exact ⟨event, hevent, rest, ih.mpr ⟨hnames, hlinked⟩, rfl⟩

theorem lastDigest_cons (event : AuditEvent) (events : List AuditEvent) (previous : Bytes) :
    lastDigest (event :: events) previous = lastDigest events event.eventDigest := by
  unfold lastDigest
  rw [List.getLast?_cons]
  cases events.getLast? <;> rfl

theorem linked_append : ∀ {events later : List AuditEvent} {index : Nat} {previous : Bytes},
    Linked read chainId (events ++ later) index previous ↔
      Linked read chainId events index previous ∧
        Linked read chainId later (index + events.length) (lastDigest events previous)
  | [], later, index, previous => by
    simp only [List.nil_append, Linked, true_and]
    rfl
  | event :: rest, later, index, previous => by
    rw [List.cons_append, Linked, Linked, linked_append, lastDigest_cons, List.length_cons,
      show index + (rest.length + 1) = index + 1 + rest.length by omega, and_assoc]

theorem linked_concat {event : AuditEvent} {index : Nat} :
    Linked read chainId (events ++ [event]) index previous ↔
      Linked read chainId events index previous ∧
        readEvent read chainId (recordName (index + events.length)) (index + events.length)
          (lastDigest events previous) = .ok event := by
  rw [linked_append, Linked, Linked, and_true]

/-- Only the records under the names of the chain matter. -/
theorem Linked.congr {read' : Bytes → Result Bytes} : ∀ {events : List AuditEvent} {index : Nat}
    {previous : Bytes}, (∀ i, index ≤ i → i < index + events.length →
      read' (recordName i) = read (recordName i)) →
    Linked read chainId events index previous → Linked read' chainId events index previous
  | [], _, _, _, _ => trivial
  | event :: rest, index, previous, hread, h => by
    refine ⟨?_, Linked.congr (fun i hi hlt => hread i (by omega) ?_) h.2⟩
    · have hfirst := hread index (Nat.le_refl index) (by rw [List.length_cons]; omega)
      unfold readEvent
      rw [hfirst]
      exact h.1
    · rw [List.length_cons]
      omega

/-- The events of a chain are numbered. -/
theorem Linked.sequences : ∀ {events : List AuditEvent} {index : Nat} {previous : Bytes},
    Linked read chainId events index previous →
      events.map AuditEvent.sequence = (List.range' index events.length).map UInt64.ofNat
  | [], _, _, _ => rfl
  | event :: rest, index, previous, h => by
    obtain ⟨_, -, -, -, -, hsequence, -⟩ := readEvent_eq_ok.mp h.1
    rw [List.map_cons, List.length_cons, List.range'_succ, List.map_cons, hsequence, h.2.sequences]

theorem Linked.nodup (h : Linked read chainId events 0 previous) (hbound : events.length < 2 ^ 64) :
    events.Nodup := by
  refine List.Nodup.of_map AuditEvent.sequence ?_
  rw [h.sequences, ← List.range_eq_range']
  refine List.nodup_range.map_on fun a ha b hb heq => ?_
  have hnat := congrArg UInt64.toNat heq
  rwa [UInt64.toNat_ofNat_of_lt' ((List.mem_range.mp ha).trans hbound),
    UInt64.toNat_ofNat_of_lt' ((List.mem_range.mp hb).trans hbound)] at hnat

end Reading

/-! ## What a directory shows -/

theorem collectNames_eq_ok {maximumEvents : UInt64} : ∀ {entries : List (Bytes × Node)}
    {count : Nat} {names : List Bytes}, collectNames maximumEvents entries count = .ok names ↔
      (∀ entry ∈ entries, recognized entry = true) ∧
        (entries = [] ∨ count + entries.length ≤ maximumEvents.toNat) ∧
        names = entries.map Prod.fst
  | [], count, names => by
    constructor
    · intro h
      cases h
      exact ⟨List.forall_mem_nil _, .inl rfl, rfl⟩
    · rintro ⟨-, -, rfl⟩
      rfl
  | entry :: rest, count, names => by
    have ih := @collectNames_eq_ok maximumEvents rest (count + 1)
    simp only [collectNames, bind_eq_ok, demand_eq_ok, decide_eq_true_eq, ih, List.forall_mem_cons,
      List.length_cons, List.map_cons, reduceCtorEq, false_or]
    constructor
    · rintro ⟨-, hentry, -, hlt, _, ⟨hrest, hbound, rfl⟩, h⟩
      cases h
      refine ⟨⟨hentry, hrest⟩, ?_, rfl⟩
      rcases hbound with rfl | hbound
      · exact hlt
      · omega
    · rintro ⟨⟨hentry, hrest⟩, hbound, rfl⟩
      exact ⟨(), hentry, (), by omega, _, ⟨hrest, .inr (by omega), rfl⟩, rfl⟩

theorem toNat_unbounded : AuditRepository.unbounded.toNat = 2 ^ 64 - 1 :=
  UInt64.toNat_ofNat_of_lt' (by decide)

/-- The directory of a chain with these events. -/
structure ShowsChain (repository : AuditRepository) (disk : Disk) (chainId : Bytes)
    (events : List AuditEvent) : Prop where
  identifier : validIdentifier chainId = true
  directory : disk.requireSafeDirectory (repository.chainRoot chainId).lexicallyNormal = .ok ()
  bound : events.length < 2 ^ 64
  listed : ∃ entries, directoryEntries disk repository.chains chainId = .ok entries ∧
    (∀ entry ∈ entries, ∃ content links, entry.2 = .file content links) ∧
    (entries.map Prod.fst).Perm ((List.range events.length).map recordName)
  linked : Linked (repository.readRecord disk chainId) chainId events 0 []

theorem recognized_file {entry : Bytes × Node} (h : recognized entry = true) :
    ∃ content links, entry.2 = .file content links := by
  unfold recognized at h
  cases hnode : entry.2 with
  | file content links => exact ⟨content, links, rfl⟩
  | directory device inode =>
    rw [hnode] at h
    cases h
  | link resolves =>
    rw [hnode] at h
    cases h
  | other =>
    rw [hnode] at h
    cases h

/-- The loop over the directory finds the names of the records. -/
theorem collectNames_records {entries : List (Bytes × Node)} {count : Nat} (hbound : count < 2 ^ 64)
    (hfiles : ∀ entry ∈ entries, ∃ content links, entry.2 = .file content links)
    (hperm : (entries.map Prod.fst).Perm ((List.range count).map recordName)) :
    collectNames AuditRepository.unbounded entries 0 = .ok (entries.map Prod.fst) := by
  have hlength := hperm.length_eq
  rw [List.length_map, List.length_map, List.length_range] at hlength
  refine collectNames_eq_ok.mpr ⟨fun entry hentry => ?_, .inr ?_, rfl⟩
  · obtain ⟨content, links, hnode⟩ := hfiles entry hentry
    obtain ⟨index, -, hname⟩ := List.mem_map.mp
      (hperm.mem_iff.mp (List.mem_map_of_mem (f := Prod.fst) hentry))
    have hrecord := @recognized_record index entry.2
    rw [hname, hnode] at hrecord
    rw [← Prod.mk.eta (p := entry), hnode]
    exact hrecord
  · rw [toNat_unbounded]
    omega

/-- The reader returns the events of the chain that the directory shows. -/
theorem readAndValidateChain_eq_ok {repository : AuditRepository} {disk : Disk} {chainId : Bytes} :
    repository.readAndValidateChain disk chainId = .ok events ↔
      ShowsChain repository disk chainId events := by
  simp only [AuditRepository.readAndValidateChain, AuditRepository.readAndValidateChainBounded,
    bind_eq_ok, demand_eq_ok, readEvents_eq_ok]
  constructor
  · rintro ⟨-, -, -, hid, _, hdirectory, entries, hentries, names, hcollect, hnames, hlinked⟩
    obtain ⟨hrecognized, hbound, rfl⟩ := collectNames_eq_ok.mp hcollect
    rw [toNat_unbounded] at hbound
    have hperm : (entries.map Prod.fst).Perm ((List.range events.length).map recordName) := by
      rw [List.range_eq_range', ← hnames]
      exact (List.perm_insertionSort _ _).symm
    have hlength := hperm.length_eq
    rw [List.length_map, List.length_map, List.length_range] at hlength
    refine ⟨hid, hdirectory, ?_, ⟨entries, hentries, ?_, hperm⟩, hlinked⟩
    · rcases hbound with rfl | hbound
      · rw [← hlength]
        decide
      · omega
    · exact fun entry hentry => recognized_file (hrecognized entry hentry)
  · rintro ⟨hid, hdirectory, hbound, ⟨entries, hentries, hfiles, hperm⟩, hlinked⟩
    refine ⟨(), by decide, (), hid, (), hdirectory, entries, hentries, _,
      collectNames_records hbound hfiles hperm, ?_, hlinked⟩
    rw [sortNames_eq hbound.le hperm, List.range_eq_range']

end Usk.Audit
