import UniversalSetup.Audit.Chain

/-!
# Appending to a chain

`append` writes the record of the next event into the directory of the chain and leaves everything
else there alone. The chain can be read afterwards if the new record can: then it has the new event
at its end.
-/

namespace Usk.Audit

open Json

variable {events events' : List AuditEvent} {input : AuditInput} {repository : AuditRepository}
  {chainId : Bytes}

/-! ## Paths -/

theorem plain_filename (sequence : UInt64) : PlainName (filename sequence) := by
  have hlength : (filename sequence).length = 31 := by
    unfold filename
    rw [List.length_append, padded_length]
    decide
  have hne : ∀ {other : Bytes}, other.length ≠ 31 → filename sequence ≠ other :=
    fun hother heq => hother (heq ▸ hlength)
  refine ⟨hne (by decide), ?_, hne (by decide), hne (by decide)⟩
  unfold filename
  intro hslash
  rcases List.mem_append.mp hslash with hdigit | hliteral
  · have hall := List.all_eq_true.mp (isDigit_padded 20 sequence.toNat) _ hdigit
    revert hall
    decide
  · revert hliteral
    decide

/-- The names on the way to a chain. -/
def chainSegments (repository : AuditRepository) (chainId : Bytes) : List Bytes :=
  repository.root.segments ++ [ascii "chains"] ++ [chainId]

theorem chains_normal (repository : AuditRepository) : NormalPath repository.chains
    (repository.root.segments ++ [ascii "chains"]) false :=
  repository.normal.join (by decide)

theorem chainRoot_normal (repository : AuditRepository) (hplain : PlainName chainId) :
    NormalPath (repository.chainRoot chainId) (chainSegments repository chainId) false :=
  (chains_normal repository).join hplain

theorem record_normal (repository : AuditRepository) (hplain : PlainName chainId) {name : Bytes}
    (hname : PlainName name) :
    NormalPath ((repository.chainRoot chainId).join ⟨name⟩)
      (chainSegments repository chainId ++ [name]) false :=
  (chainRoot_normal repository hplain).join hname

/-- Only chains with a plain name are ever created. -/
theorem initializeChain_eq_ok {disk disk' : Disk} {device inode : UInt64}
    (h : repository.initializeChain disk chainId device inode = .ok disk') :
    PlainName chainId ∧ validIdentifier chainId = true ∧
      disk.requireSafeDirectory repository.chains = .ok () ∧
      (repository.chainRoot chainId).native.length < Disk.pathMax ∧
      disk.addDirectory (chainSegments repository chainId) device inode = some disk' := by
  simp only [AuditRepository.initializeChain, bind_eq_ok, demand_eq_ok] at h
  obtain ⟨-, -, _, -, h⟩ := h
  obtain ⟨hsafe, hid, hshort, hadd⟩ := Disk.createDirectoryExclusive_eq_ok h
  rw [(chains_normal repository).segments_eq] at hadd
  exact ⟨(Disk.addDirectory_eq_some hadd).2 chainId (by simp), hid, hsafe, hshort, hadd⟩

/-! ## The new record -/

/-- The file that a new record is, where the path is not too long. -/
structure WroteRecord (repository : AuditRepository) (disk : Disk) (chainId : Bytes)
    (event : AuditEvent) (disk' : Disk) : Prop where
  short : (repository.recordPath chainId event.sequence).native.length < Disk.pathMax
  added : disk.addFile (chainSegments repository chainId ++ [filename event.sequence])
    (recordText event) = some disk'

theorem writeRecord_eq_ok (hplain : PlainName chainId) {disk disk' : Disk} {event : AuditEvent}
    (h : repository.writeRecord disk chainId event = .ok disk') :
    WroteRecord repository disk chainId event disk' := by
  have hpath := record_normal repository hplain (plain_filename event.sequence)
  obtain ⟨hshort, hadd⟩ := Disk.writeNewDurableText_eq_ok h
  unfold AuditRepository.recordPath at hadd
  rw [hpath.lexicallyNormal, hpath.segments_eq] at hadd
  exact ⟨hshort, hadd⟩

section Written

variable {disk disk' : Disk} {event : AuditEvent}

theorem WroteRecord.node_of_above (h : WroteRecord repository disk chainId event disk') {p : Path}
    (hp : p.segments.length ≤ (chainSegments repository chainId).length) :
    disk'.node p = disk.node p := by
  refine Disk.node_addFile h.added fun heq => ?_
  rw [heq, List.length_append, List.length_singleton] at hp
  omega

theorem WroteRecord.directory (h : WroteRecord repository disk chainId event disk')
    (hplain : PlainName chainId) :
    disk'.requireSafeDirectory (repository.chainRoot chainId).lexicallyNormal =
      disk.requireSafeDirectory (repository.chainRoot chainId).lexicallyNormal := by
  have hpath := chainRoot_normal repository hplain
  unfold Disk.requireSafeDirectory
  rw [hpath.lexicallyNormal, h.node_of_above (by rw [hpath.segments_eq])]

/-- The directory of the chain has one more entry. -/
theorem WroteRecord.entries (h : WroteRecord repository disk chainId event disk')
    (hplain : PlainName chainId) {entries : List (Bytes × Node)}
    (hentries : directoryEntries disk repository.chains chainId = .ok entries) :
    directoryEntries disk' repository.chains chainId =
      .ok (entries ++ [(filename event.sequence, .file (recordText event) 1)]) := by
  have hpath : NormalPath (repository.chains.join ⟨chainId⟩) (chainSegments repository chainId)
      false := chainRoot_normal repository hplain
  have hchains : repository.chains.segments.length ≤ (chainSegments repository chainId).length := by
    rw [(chains_normal repository).segments_eq]
    simp [chainSegments]
  have hadd := h.added
  rw [← hpath.segments_eq] at hadd
  simp only [directoryEntries, Disk.requireSafeDirectory, bind_eq_ok] at hentries ⊢
  obtain ⟨u, hsafe, u', hshort, hlist⟩ := hentries
  rw [h.node_of_above hchains]
  refine ⟨u, hsafe, u', hshort, ?_⟩
  rw [hpath.lexicallyNormal] at hlist ⊢
  cases hlist
  rw [Disk.list_addFile hadd]
  rfl

theorem WroteRecord.readRecord_of_ne (h : WroteRecord repository disk chainId event disk')
    (hplain : PlainName chainId) {name : Bytes} (hname : PlainName name)
    (hne : name ≠ filename event.sequence) :
    repository.readRecord disk' chainId name = repository.readRecord disk chainId name := by
  have hpath := record_normal repository hplain hname
  unfold AuditRepository.readRecord
  rw [hpath.lexicallyNormal]
  refine Disk.readStableText_addFile_of_ne h.added ?_ _
  rw [hpath.segments_eq]
  exact fun heq => hne (List.cons.inj (List.append_cancel_left heq)).1

theorem WroteRecord.readRecord (h : WroteRecord repository disk chainId event disk')
    (hplain : PlainName chainId) {text : Bytes} :
    repository.readRecord disk' chainId (filename event.sequence) = .ok text ↔
      text = recordText event ∧ (recordText event).length ≤ maximumEventBytes := by
  have hpath := record_normal repository hplain (plain_filename event.sequence)
  unfold AuditRepository.readRecord
  rw [hpath.lexicallyNormal]
  exact Disk.readStableText_addFile h.added hpath h.short

/-! ## The chain with the new record -/

theorem linked_unique {read : Bytes → Result Bytes} (h : Linked read chainId events 0 [])
    (h' : Linked read chainId events' 0 []) (hlength : events.length = events'.length) :
    events = events' := by
  have hread := (@readEvents_eq_ok read chainId _ 0 [] events).mpr ⟨rfl, h⟩
  have hread' := (@readEvents_eq_ok read chainId _ 0 [] events').mpr ⟨rfl, h'⟩
  rw [hlength, hread'] at hread
  exact (Except.ok.inj hread).symm

/-- The records before the new one are read as before. -/
theorem WroteRecord.linked_iff (h : WroteRecord repository disk chainId event disk')
    (hplain : PlainName chainId) {count : Nat} (hcount : events.length ≤ count)
    (hbound : count < 2 ^ 64) (hsequence : event.sequence = UInt64.ofNat count) :
    Linked (repository.readRecord disk' chainId) chainId events 0 [] ↔
      Linked (repository.readRecord disk chainId) chainId events 0 [] := by
  have hsame : ∀ i, 0 ≤ i → i < 0 + events.length →
      repository.readRecord disk' chainId (recordName i) =
        repository.readRecord disk chainId (recordName i) := by
    intro i _ hi
    refine h.readRecord_of_ne hplain (plain_filename _) fun heq => ?_
    rw [hsequence] at heq
    have := recordName_injective (by omega) hbound heq
    omega
  exact ⟨Linked.congr fun i hi hlt => (hsame i hi hlt).symm, Linked.congr hsame⟩

/-- The reader finds the new record at the end of the chain, if it can read it at all. -/
theorem WroteRecord.readEvent_iff (h : WroteRecord repository disk chainId event disk')
    (hplain : PlainName chainId) {count : Nat} {previous : Bytes} {found : AuditEvent}
    (hsequence : event.sequence = UInt64.ofNat count) :
    readEvent (repository.readRecord disk' chainId) chainId (recordName count) count previous =
        .ok found ↔
      found = event ∧ decodeAuditEventRecord (recordText event) = .ok event ∧
        validIdentifier chainId = true ∧ event.auditChainId = chainId ∧
        event.eventId = chainId ++ 0x2e :: decimal (UInt64.ofNat count).toNat ∧
        event.previousEventDigest = previous := by
  have hname : recordName count = filename event.sequence := by rw [hsequence]; rfl
  rw [readEvent_eq_ok, hname]
  constructor
  · rintro ⟨text, hread, hdecode, hid, hchain, -, hevent, hprevious, -⟩
    obtain ⟨rfl, -⟩ := (h.readRecord hplain).mp hread
    have heq := decode_recordText_unique hdecode
    subst heq
    exact ⟨rfl, hdecode, hid, hchain, hevent, hprevious⟩
  · rintro ⟨rfl, hdecode, hid, hchain, hevent, hprevious⟩
    obtain ⟨_, haccepted⟩ := decodeAuditEventRecord_eq_ok.mp hdecode
    exact ⟨_, (h.readRecord hplain).mpr ⟨rfl, haccepted.short⟩, hdecode, hid, hchain, hsequence,
      hevent, hprevious, rfl⟩

end Written

/-- What the directory shows after the next event was written: the chain with that event at its end,
if the record of the event can be read and the number of events still fits. -/
theorem ShowsChain.write_iff {disk disk' : Disk} (h : ShowsChain repository disk chainId events)
    (hplain : PlainName chainId)
    (hwrote : WroteRecord repository disk chainId (nextEvent chainId events input) disk') :
    ShowsChain repository disk' chainId events' ↔
      events' = events ++ [nextEvent chainId events input] ∧ events.length + 1 < 2 ^ 64 ∧
        decodeAuditEventRecord (recordText (nextEvent chainId events input)) =
          .ok (nextEvent chainId events input) := by
  obtain ⟨entries, hentries, hfiles, hperm⟩ := h.listed
  have hentries' := hwrote.entries hplain hentries
  have hlength := hperm.length_eq
  rw [List.length_map, List.length_map, List.length_range] at hlength
  constructor
  · intro h'
    obtain ⟨_, hlisted, -, hperm'⟩ := h'.listed
    cases hentries'.symm.trans hlisted
    have hlength' := hperm'.length_eq
    rw [List.length_map, List.length_map, List.length_range, List.length_append,
      List.length_singleton] at hlength'
    obtain rfl | ⟨found, last, rfl⟩ := List.eq_nil_or_concat events'
    · rw [List.length_nil] at hlength'
      omega
    · rw [List.concat_eq_append] at *
      rw [List.length_append, List.length_singleton] at hlength'
      have hsame : found.length = events.length := by omega
      obtain ⟨hlinked, hlast⟩ := linked_concat.mp h'.linked
      have hfound := linked_unique ((hwrote.linked_iff hplain hsame.le h.bound rfl).mp hlinked)
        h.linked hsame
      subst hfound
      rw [Nat.zero_add] at hlast
      obtain ⟨rfl, hdecode, -⟩ := (hwrote.readEvent_iff hplain rfl).mp hlast
      have hbound := h'.bound
      rw [List.length_append, List.length_singleton] at hbound
      exact ⟨rfl, hbound, hdecode⟩
  · rintro ⟨rfl, hbound, hdecode⟩
    have hlinked := (hwrote.linked_iff hplain (Nat.le_refl _) h.bound rfl).mpr h.linked
    refine ⟨h.identifier, (hwrote.directory hplain).trans h.directory, ?_, ⟨_, hentries', ?_, ?_⟩,
      ?_⟩
    · rwa [List.length_append, List.length_singleton]
    · intro entry hentry
      rcases List.mem_append.mp hentry with hentry | hentry
      · exact hfiles entry hentry
      · rw [List.mem_singleton.mp hentry]
        exact ⟨_, _, rfl⟩
    · rw [List.map_append, List.length_append, List.length_singleton, List.range_succ,
        List.map_append]
      exact hperm.append (List.Perm.refl _)
    · refine linked_concat.mpr ⟨hlinked, ?_⟩
      rw [Nat.zero_add]
      exact (hwrote.readEvent_iff hplain rfl).mpr ⟨rfl, hdecode, h.identifier, rfl, rfl, rfl⟩

/-! ## Which records can be read -/

theorem validIdentifier_eventId (h : validIdentifier chainId = true) (n : Nat) :
    validIdentifier (chainId ++ 0x2e :: decimal n) = true ↔
      (chainId ++ 0x2e :: decimal n).length ≤ 128 := by
  have hdigits : (decimal n).all fun ch => isAlnum ch || ch == 0x2e || ch == 0x5f ||
    ch == 0x2d := by
    refine List.all_eq_true.mpr fun c hc => ?_
    rw [isAlnum, isDigit_of_mem_decimal hc]
    rfl
  have hne : (chainId ++ 0x2e :: decimal n).isEmpty = false := by simp
  unfold validIdentifier at *
  rw [Bool.and_eq_true] at h
  rw [hne, List.all_append, h.2, List.all_cons, hdigits]
  simp

/-- The digest that the next event refers to. -/
theorem validSha256_lastDigest {read : Bytes → Result Bytes} (h : Linked read chainId events 0 []) :
    lastDigest events [] = [] ∨ validSha256 (lastDigest events []) = true := by
  obtain rfl | ⟨before, last, rfl⟩ := List.eq_nil_or_concat events
  · exact .inl rfl
  · rw [List.concat_eq_append] at *
    obtain ⟨_, -, hdecode, -⟩ := readEvent_eq_ok.mp (linked_concat.mp h).2
    obtain ⟨_, haccepted⟩ := decodeAuditEventRecord_eq_ok.mp hdecode
    have hsealed := haccepted.isSealed
    unfold AuditEvent.sealed at hsealed
    simp only [Bool.and_eq_true] at hsealed
    unfold lastDigest
    rw [List.getLast?_concat]
    exact .inr hsealed.1.1.2

theorem ShowsChain.nextEvent_eventId {disk : Disk} (h : ShowsChain repository disk chainId events)
    (input : AuditInput) :
    (nextEvent chainId events input).eventId = chainId ++ 0x2e :: decimal events.length := by
  show chainId ++ 0x2e :: decimal (UInt64.ofNat events.length).toNat = _
  rw [UInt64.toNat_ofNat_of_lt' h.bound]

theorem ShowsChain.sealed_next {disk : Disk} {events : List AuditEvent} {input : AuditInput}
    (h : ShowsChain repository disk chainId events)
    (hid : (nextEvent chainId events input).eventId.length ≤ 128) :
    (nextEvent chainId events input).sealed = true := by
  refine sealed_withDigest ?_ h.identifier (validSha256_lastDigest h.linked)
  show validIdentifier (nextEvent chainId events input).eventId = true
  rw [h.nextEvent_eventId] at hid ⊢
  exact (validIdentifier_eventId h.identifier _).mpr hid

/-- The record of the next event can be read if its identifier is not too long. -/
theorem ShowsChain.decode_next_iff {disk : Disk} (h : ShowsChain repository disk chainId events)
    (hvalid : input.valid = true) (hcreated : validUtf8 input.createdAt = true)
    (hmessage : validUtf8 input.message = true) (hlength : input.createdAt.length ≤ 4096) :
    decodeAuditEventRecord (recordText (nextEvent chainId events input)) =
        .ok (nextEvent chainId events input) ↔
      (chainId ++ 0x2e :: decimal events.length).length ≤ 128 := by
  constructor
  · intro hdecode
    obtain ⟨_, haccepted⟩ := decodeAuditEventRecord_eq_ok.mp hdecode
    have hsealed := haccepted.isSealed
    unfold AuditEvent.sealed at hsealed
    simp only [Bool.and_eq_true] at hsealed
    rw [h.nextEvent_eventId] at hsealed
    exact (validIdentifier_eventId h.identifier _).mp hsealed.1.1.1.1
  · intro hid
    have hsealed := @ShowsChain.sealed_next _ _ _ _ input h (by rwa [h.nextEvent_eventId])
    exact decode_recordText hvalid hsealed hcreated hmessage
      (recordText_length_le hvalid hsealed hlength)

/-! ## Appending -/

theorem append_eq_ok {disk disk' : Disk} {event : AuditEvent}
    (h : repository.append disk chainId input = .ok (event, disk')) :
    input.valid = true ∧ ∃ events, ShowsChain repository disk chainId events ∧
      event = nextEvent chainId events input ∧
      repository.writeRecord disk chainId event = .ok disk' := by
  simp only [AuditRepository.append, validateInput, bind_eq_ok, demand_eq_ok] at h
  obtain ⟨-, hvalid, events, hread, written, hwrite, h⟩ := h
  cases h
  exact ⟨hvalid, events, readAndValidateChain_eq_ok.mp hread, rfl, hwrite⟩

/-- What can be read after a successful append: the chain with the event at its end or nothing. -/
theorem read_after_append {disk disk' : Disk} {event : AuditEvent} (hplain : PlainName chainId)
    (hcreated : validUtf8 input.createdAt = true) (hmessage : validUtf8 input.message = true)
    (hlength : input.createdAt.length ≤ 4096)
    (hchain : repository.readAndValidateChain disk chainId = .ok events)
    (happend : repository.append disk chainId input = .ok (event, disk')) :
    repository.readAndValidateChain disk' chainId = .ok events' ↔
      events' = events ++ [event] ∧ (chainId ++ 0x2e :: decimal events.length).length ≤ 128 ∧
        events.length + 1 < 2 ^ 64 := by
  obtain ⟨hvalid, found, hshows, rfl, hwrite⟩ := append_eq_ok happend
  have hfound : found = events :=
    Except.ok.inj ((readAndValidateChain_eq_ok.mpr hshows).symm.trans hchain)
  subst hfound
  rw [readAndValidateChain_eq_ok, hshows.write_iff hplain (writeRecord_eq_ok hplain hwrite),
    hshows.decode_next_iff hvalid hcreated hmessage hlength]
  exact and_congr_right fun _ => and_comm

/-- There is room for the next record in the directory. -/
theorem ShowsChain.free {disk : Disk} (h : ShowsChain repository disk chainId events)
    (hplain : PlainName chainId) :
    disk.tree.find (chainSegments repository chainId ++ [recordName events.length]) = none ∧
      disk.tree.HasParent (chainSegments repository chainId ++ [recordName events.length]) := by
  have hchain := chainRoot_normal repository hplain
  have hsafe := h.directory
  rw [hchain.lexicallyNormal] at hsafe
  refine ⟨?_, Disk.hasParent_of_safe hchain hsafe _⟩
  · cases hfind : disk.tree.find (chainSegments repository chainId ++
      [recordName events.length]) with
    | none => rfl
    | some node =>
      -- the reader would have seen the record
      obtain ⟨entries, hentries, -, hperm⟩ := h.listed
      have hmem := disk.tree.mem_of_find hfind
      rw [← hchain.segments_eq, ← Disk.mem_list] at hmem
      have hlist : disk.list (repository.chainRoot chainId) = entries := by
        simp only [directoryEntries, bind_eq_ok] at hentries
        obtain ⟨-, -, -, -, hlist⟩ := hentries
        cases hlist
        exact congrArg disk.list hchain.lexicallyNormal.symm
      rw [hlist] at hmem
      obtain ⟨index, hindex, hname⟩ := List.mem_map.mp
        (hperm.mem_iff.mp (List.mem_map_of_mem hmem))
      have hlt := List.mem_range.mp hindex
      have := recordName_injective (hlt.trans h.bound) h.bound hname
      omega

/-- Once the chain was read, `append` of a valid input fails only over a path that is too long. -/
theorem ShowsChain.append {disk : Disk} (h : ShowsChain repository disk chainId events)
    (hplain : PlainName chainId) (hvalid : input.valid = true)
    (hshort : (repository.recordPath chainId (UInt64.ofNat events.length)).native.length <
      Disk.pathMax) :
    ∃ disk', repository.append disk chainId input = .ok (nextEvent chainId events input,
      disk') := by
  have hroot := chainRoot_normal repository hplain
  have hpath := record_normal repository hplain (plain_filename (UInt64.ofNat events.length))
  have hsafe := h.directory
  rw [hroot.lexicallyNormal] at hsafe
  obtain ⟨hnone, hparent⟩ := h.free hplain
  obtain ⟨disk', hadd⟩ := Disk.exists_addFile (recordText (nextEvent chainId events input)) hnone
    hparent hpath.plain
  refine ⟨disk', ?_⟩
  simp only [AuditRepository.append, validateInput, bind_eq_ok, demand_eq_ok]
  exact ⟨(), hvalid, events, readAndValidateChain_eq_ok.mpr h, disk',
    Disk.writeNewDurableText_of_added hroot hpath hsafe hshort hadd, rfl⟩

/-! ## Reading after an append -/

/-- An audit directory without chains. -/
def sampleDisk : Disk :=
  .ofEntries [([], .directory 1 1), ([ascii "chains"], .directory 1 2)] (by decide +kernel)

def sampleRepository : AuditRepository :=
  ⟨⟨ascii "/"⟩, isNormal_root⟩

/-- An identifier of the greatest length. -/
def longChainId : Bytes :=
  List.replicate 128 0x61

/-- The second event of a chain, of an operation with a transaction. -/
def laterInput : AuditInput :=
  { sampleInput with
    createdAt := ascii "2026-07-14T00:00:03Z"
    operation := ascii "repair"
    transactionId := ascii "transaction.fixture" }

theorem laterInput_valid : laterInput.valid = true := by
  decide

theorem laterInput_utf8 : validUtf8 laterInput.createdAt = true ∧
    validUtf8 laterInput.message = true :=
  ⟨validUtf8_of_ascii (by decide +kernel), sampleInput_utf8.2⟩

/-- The chain can be created and is read as empty. -/
def starts (repository : AuditRepository) (disk : Disk) (chainId : Bytes) : Bool :=
  (repository.initializeChain disk chainId 1 9).toOption.any fun disk =>
    decide ((repository.readAndValidateChain disk chainId).toOption = some [])

theorem starts_fixture : starts sampleRepository sampleDisk (ascii "audit.fixture") = true := by
  decide +kernel

theorem starts_long : starts sampleRepository sampleDisk longChainId = true := by
  decide +kernel

theorem exists_of_starts {disk₀ : Disk} (h : starts repository disk₀ chainId = true) :
    ∃ disk, repository.initializeChain disk₀ chainId 1 9 = .ok disk ∧ PlainName chainId ∧
      repository.readAndValidateChain disk chainId = .ok [] := by
  obtain ⟨disk, hinit, hread⟩ := exists_of_any h
  exact ⟨disk, hinit, (initializeChain_eq_ok hinit).1,
    toOption_eq_some.mp (of_decide_eq_true hread)⟩

/-- Two appends to a new chain whose records have paths that are short enough. -/
theorem exists_two_appends {disk : Disk} {input' : AuditInput} (hplain : PlainName chainId)
    (hchain : repository.readAndValidateChain disk chainId = .ok [])
    (hfirst : input.valid = true ∧ validUtf8 input.createdAt = true ∧
      validUtf8 input.message = true ∧ input.createdAt.length ≤ 4096)
    (hsecond : input'.valid = true) (hid : chainId.length ≤ 126)
    (hshort : ∀ n < 2, (repository.recordPath chainId (UInt64.ofNat n)).native.length <
      Disk.pathMax) :
    ∃ disk₁ disk₂, repository.append disk chainId input = .ok (nextEvent chainId [] input, disk₁) ∧
      repository.readAndValidateChain disk₁ chainId = .ok [nextEvent chainId [] input] ∧
      repository.append disk₁ chainId input' =
        .ok (nextEvent chainId [nextEvent chainId [] input] input', disk₂) := by
  obtain ⟨hvalid, hcreated, hmessage, hlength⟩ := hfirst
  obtain ⟨disk₁, happend⟩ := (readAndValidateChain_eq_ok.mp hchain).append hplain hvalid
    (hshort 0 (by decide))
  have hread : repository.readAndValidateChain disk₁ chainId =
    .ok [nextEvent chainId [] input] := by
    refine (read_after_append hplain hcreated hmessage hlength hchain happend).mpr ⟨rfl, ?_, ?_⟩
    · rw [List.length_append]
      exact Nat.add_le_add_right hid 2
    · decide
  obtain ⟨disk₂, happend'⟩ := (readAndValidateChain_eq_ok.mp hread).append hplain hsecond
    (hshort 1 (by decide))
  exact ⟨disk₁, disk₂, happend, hread, happend'⟩

/-- A successful append leaves a readable chain, with the event at its end, exactly if the
identifier of the event is one and the number of events does not reach the bound of the reader. -/
theorem append_keeps_chain_readable {disk disk' : Disk} {input : AuditInput} {event : AuditEvent}
    {events : List AuditEvent}
    (haccepted : ∃ disk₀ device inode disk₁,
      repository.initializeChain disk₀ chainId device inode = .ok disk₁)
    (hcreated : validUtf8 input.createdAt = true) (hmessage : validUtf8 input.message = true)
    (hlength : input.createdAt.length ≤ 64)
    (hchain : repository.readAndValidateChain disk chainId = .ok events)
    (happend : repository.append disk chainId input = .ok (event, disk')) :
    repository.readAndValidateChain disk' chainId = .ok (events ++ [event]) ↔
      (chainId ++ 0x2e :: decimal events.length).length ≤ 128 ∧ events.length + 1 < 2 ^ 64 := by
  obtain ⟨_, _, _, _, hinit⟩ := haccepted
  rw [read_after_append (initializeChain_eq_ok hinit).1 hcreated hmessage
    (hlength.trans (by decide)) hchain happend]
  exact and_iff_right rfl

/-- A second event is appended to a chain that has one. -/
theorem sample_append_readable : ∃ disk disk₁ disk₂ first second,
    sampleRepository.initializeChain sampleDisk (ascii "audit.fixture") 1 9 = .ok disk ∧
    sampleRepository.append disk (ascii "audit.fixture") sampleInput = .ok (first, disk₁) ∧
    sampleRepository.append disk₁ (ascii "audit.fixture") laterInput = .ok (second, disk₂) ∧
    sampleRepository.readAndValidateChain disk₂ (ascii "audit.fixture") = .ok [first, second] := by
  obtain ⟨disk, hinit, hplain, hchain⟩ := exists_of_starts starts_fixture
  obtain ⟨disk₁, disk₂, hfirst, hread, hsecond⟩ := exists_two_appends hplain hchain
    ⟨sampleInput_valid, sampleInput_utf8.1, sampleInput_utf8.2, by decide⟩ laterInput_valid
    (by decide) (by decide +kernel)
  exact ⟨disk, disk₁, disk₂, _, _, hinit, hfirst, hsecond, (append_keeps_chain_readable
    ⟨_, _, _, _, hinit⟩ laterInput_utf8.1 laterInput_utf8.2 (by decide) hread hsecond).mpr
      (by decide +kernel)⟩

/-- The first event of a chain with the longest identifier makes the chain unreadable. -/
theorem append_makes_chain_unreadable : ∃ disk disk' event,
    sampleRepository.initializeChain sampleDisk longChainId 1 9 = .ok disk ∧
    sampleRepository.readAndValidateChain disk longChainId = .ok [] ∧
    sampleRepository.append disk longChainId sampleInput = .ok (event, disk') ∧
    ∀ events, sampleRepository.readAndValidateChain disk' longChainId ≠ .ok events := by
  obtain ⟨disk, hinit, hplain, hchain⟩ := exists_of_starts starts_long
  obtain ⟨disk', happend⟩ := (readAndValidateChain_eq_ok.mp hchain).append hplain sampleInput_valid
    (by decide +kernel)
  refine ⟨disk, disk', _, hinit, hchain, happend, fun events hread => ?_⟩
  obtain ⟨-, hlength, -⟩ := (read_after_append hplain sampleInput_utf8.1 sampleInput_utf8.2
    (by decide) hchain happend).mp hread
  revert hlength
  decide +kernel

end Usk.Audit
