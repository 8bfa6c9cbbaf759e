import UniversalSetup.Audit.Append
import Mathlib.Logic.Function.Basic

/-!
# Concurrent appends

Any number of appenders on one chain, each somewhere between its call and its return. Between two
steps of one of them the others may do anything. A directory is listed while others create files in
it: a listing has all that was there when the directory was opened, and possibly some of what came
later. Only the exclusive creation of the record arbitrates.

Every appender that has read some events has read the first events of the chain, and stays that way
when the chain grows. An appender that has not seen the whole chain wants to create a record that is
already there.
-/

namespace Usk.Audit

open Json

variable {events : List AuditEvent}

/-! ## Appenders -/

/-- How far an appender has come. -/
inductive Stage where
  | called (input : AuditInput)
  | listing (input : AuditInput) (seen : List (Bytes × Node))
  | reading (input : AuditInput) (names : List Bytes) (events : List AuditEvent)
  | prepared (event : AuditEvent)
  | returned (event : AuditEvent)
  | failed (message : String)

/-- What the host decides at a step. -/
inductive Choice where
  /-- The step is made. -/
  | goes
  /-- The directory lists these entries. -/
  | lists (entries : List (Bytes × Node))
  /-- The host fails before anything has happened. -/
  | breaks (message : String)
  /-- The record is created, and then flushing the directory fails. -/
  | breaksAfter (message : String)

/-- The appender goes on, or fails with the message of its exception. -/
def Stage.ofResult {α : Type} (disk : Disk) (result : Result α) (next : α → Stage) : Stage × Disk :=
  match result with
  | .ok a => (next a, disk)
  | .error message => (.failed message, disk)

section Step

variable (repository : AuditRepository) (chainId : Bytes)

/-- The part of `append` up to the loop over the directory, which is opened. -/
def openChain (disk : Disk) (input : AuditInput) : Result (List (Bytes × Node)) := do
  validateInput input
  demand (validIdentifier chainId) "audit chain id is invalid"
  disk.requireSafeDirectory (repository.chainRoot chainId).lexicallyNormal
  directoryEntries disk repository.chains chainId

/-- A listing of a directory that had the entries `seen` when it was opened and has those of `now`
at the end. -/
def admissible (seen now listed : List (Bytes × Node)) : Bool :=
  seen.all listed.contains && listed.all now.contains && decide (listed.map Prod.fst).Nodup

/-- One step of an appender, unless it has finished or the host decides for another step. -/
def advance (disk : Disk) (stage : Stage) (choice : Choice) : Option (Stage × Disk) :=
  match stage, choice with
  | .returned _, _ => none
  | .failed _, _ => none
  | _, .breaks message => some (.failed message, disk)
  | .called input, .goes =>
    some (Stage.ofResult disk (openChain repository chainId disk input) (.listing input))
  | .listing input seen, .lists listed =>
    if admissible seen (disk.list (repository.chainRoot chainId).lexicallyNormal) listed then
      some (Stage.ofResult disk (collectNames AuditRepository.unbounded listed 0)
        fun names => .reading input (sortNames names) [])
    else none
  | .reading input [] events, .goes => some (.prepared (nextEvent chainId events input), disk)
  | .reading input (name :: rest) events, .goes =>
    some (Stage.ofResult disk (readEvent (repository.readRecord disk chainId) chainId name
      events.length (lastDigest events [])) fun event => .reading input rest (events ++ [event]))
  | .prepared event, .goes =>
    match repository.writeRecord disk chainId event with
    | .ok written => some (.returned event, written)
    | .error message => some (.failed message, disk)
  | .prepared event, .breaksAfter message =>
    match repository.writeRecord disk chainId event with
    | .ok written => some (.failed message, written)
    | .error message => some (.failed message, disk)
  | _, _ => none

end Step

/-- The file system and all appenders. -/
structure World (ι : Type) where
  disk : Disk
  stage : ι → Stage

namespace World

variable {ι : Type} [DecidableEq ι] (repository : AuditRepository) (chainId : Bytes)

def step (w : World ι) (i : ι) (choice : Choice) : World ι :=
  match advance repository chainId w.disk (w.stage i) choice with
  | some (stage, disk) => ⟨disk, Function.update w.stage i stage⟩
  | none => w

/-- Steps of the appenders in any order. -/
def run (w : World ι) : List (ι × Choice) → World ι
  | [] => w
  | (i, choice) :: rest => (w.step repository chainId i choice).run rest

variable {repository chainId}

theorem step_of_advance (w : World ι) {i : ι} {choice : Choice} {stage : Stage} {disk : Disk}
    (h : advance repository chainId w.disk (w.stage i) choice = some (stage, disk)) :
    w.step repository chainId i choice = ⟨disk, Function.update w.stage i stage⟩ := by
  rw [step, h]

theorem run_append (steps later : List (ι × Choice)) : ∀ w : World ι,
    w.run repository chainId (steps ++ later) =
      (w.run repository chainId steps).run repository chainId later := by
  induction steps with
  | nil => exact fun _ => rfl
  | cons step rest ih => exact fun w => ih (w.step repository chainId step.1 step.2)

end World

/-! ## What a step can do -/

variable {repository : AuditRepository} {chainId : Bytes}

theorem Stage.ofResult_cases {α : Type} {disk disk' : Disk} {result : Result α} {next : α → Stage}
    {stage : Stage} (h : Stage.ofResult disk result next = (stage, disk')) :
    disk' = disk ∧ ((∃ message, stage = .failed message) ∨
      ∃ a, result = .ok a ∧ stage = next a) := by
  unfold Stage.ofResult at h
  cases result with
  | ok a =>
    cases h
    exact ⟨rfl, .inr ⟨a, rfl, rfl⟩⟩
  | error message =>
    cases h
    exact ⟨rfl, .inl ⟨message, rfl⟩⟩

/-- What a step makes of a stage and a file system. -/
inductive Moves (repository : AuditRepository) (chainId : Bytes) (disk : Disk) :
    Stage → Stage → Disk → Prop
  | fails (stage : Stage) (message : String) :
    Moves repository chainId disk stage (.failed message) disk
  | opens (input : AuditInput) (seen : List (Bytes × Node)) (hvalid : input.valid = true) :
    Moves repository chainId disk (.called input) (.listing input seen) disk
  | lists (input : AuditInput) (seen : List (Bytes × Node)) (names : List Bytes) :
    Moves repository chainId disk (.listing input seen) (.reading input names []) disk
  | reads (input : AuditInput) (name : Bytes) (rest : List Bytes) (events : List AuditEvent)
      (event : AuditEvent) (hread : readEvent (repository.readRecord disk chainId) chainId name
        events.length (lastDigest events []) = .ok event) :
    Moves repository chainId disk (.reading input (name :: rest) events)
      (.reading input rest (events ++ [event])) disk
  | prepares (input : AuditInput) (events : List AuditEvent) :
    Moves repository chainId disk (.reading input [] events)
      (.prepared (nextEvent chainId events input)) disk
  | creates (event : AuditEvent) (stage : Stage) (disk' : Disk)
      (hwrite : repository.writeRecord disk chainId event = .ok disk')
      (hstage : stage = .returned event ∨ ∃ message, stage = .failed message) :
    Moves repository chainId disk (.prepared event) stage disk'

theorem openChain_valid {disk : Disk} {input : AuditInput} {seen : List (Bytes × Node)}
    (h : openChain repository chainId disk input = .ok seen) : input.valid = true := by
  simp only [openChain, validateInput, bind_eq_ok, demand_eq_ok] at h
  obtain ⟨-, hvalid, -⟩ := h
  exact hvalid

theorem advance_moves {disk disk' : Disk} {stage stage' : Stage} {choice : Choice}
    (h : advance repository chainId disk stage choice = some (stage', disk')) :
    Moves repository chainId disk stage stage' disk' := by
  unfold advance at h
  split at h
  · cases h
  · cases h
  · cases h
    exact .fails _ _
  · obtain ⟨rfl, ⟨message, rfl⟩ | ⟨seen, hopen, rfl⟩⟩ := Stage.ofResult_cases (Option.some.inj h)
    · exact .fails _ _
    · exact .opens _ _ (openChain_valid hopen)
  · split at h
    · obtain ⟨rfl, ⟨message, rfl⟩ | ⟨names, -, rfl⟩⟩ := Stage.ofResult_cases (Option.some.inj h)
      · exact .fails _ _
      · exact .lists _ _ _
    · cases h
  · cases h
    exact .prepares _ _
  · obtain ⟨rfl, ⟨message, rfl⟩ | ⟨event, hread, rfl⟩⟩ := Stage.ofResult_cases (Option.some.inj h)
    · exact .fails _ _
    · exact .reads _ _ _ _ _ hread
  · split at h
    · next written hwrite =>
      cases h
      exact .creates _ _ _ hwrite (.inl rfl)
    · cases h
      exact .fails _ _
  · split at h
    · next written hwrite =>
      cases h
      exact .creates _ _ _ hwrite (.inr ⟨_, rfl⟩)
    · cases h
      exact .fails _ _
  · cases h

/-! ## What an appender knows -/

/-- The stage of an appender on a chain with these events. Of the input that it was called with, `P`
is known. -/
def Fits (P : AuditInput → Prop) (chainId : Bytes) (events : List AuditEvent) : Stage → Prop
  | .called input => P input
  | .listing input _ => P input ∧ input.valid = true
  | .reading input _ known => (P input ∧ input.valid = true) ∧ known <+: events
  | .prepared event => ∃ input known, (P input ∧ input.valid = true) ∧ known <+: events ∧
      event = nextEvent chainId known input
  | .returned event => events[event.sequence.toNat]? = some event
  | .failed _ => True

/-- What an appender knows stays true when the chain grows. -/
theorem Fits.mono {P : AuditInput → Prop} {events events' : List AuditEvent}
    (h : events <+: events') :
    ∀ {stage : Stage}, Fits P chainId events stage → Fits P chainId events' stage
  | .called _, hinput => hinput
  | .listing _ _, hvalid => hvalid
  | .reading _ _ _, ⟨hvalid, hknown⟩ => ⟨hvalid, hknown.trans h⟩
  | .prepared _, ⟨input, known, hvalid, hknown, hevent⟩ =>
    ⟨input, known, hvalid, hknown.trans h, hevent⟩
  | .returned _, hevent => by
    obtain ⟨later, rfl⟩ := h
    exact (List.getElem?_append_left (List.getElem?_eq_some_iff.mp hevent).1).trans hevent
  | .failed _, _ => trivial

theorem find_of_readRecord {disk : Disk} {index : Nat} {text : Bytes} (hplain : PlainName chainId)
    (h : repository.readRecord disk chainId (recordName index) = .ok text) :
    disk.tree.find (chainSegments repository chainId ++ [recordName index]) ≠ none := by
  have hpath := record_normal repository hplain (plain_filename (UInt64.ofNat index))
  obtain ⟨links, hfind⟩ := Disk.readStableText_eq_ok h
  have hsegments :
    ((repository.chainRoot chainId).join ⟨recordName index⟩).lexicallyNormal.segments =
      chainSegments repository chainId ++ [recordName index] :=
    (congrArg Path.segments hpath.lexicallyNormal).trans hpath.segments_eq
  rw [hsegments] at hfind
  rw [hfind]
  exact Option.some_ne_none _

/-- An appender that reads on reads the next event of the chain. -/
theorem ShowsChain.reads_on {disk : Disk} {events known : List AuditEvent} {name : Bytes}
    {event : AuditEvent} (h : ShowsChain repository disk chainId events)
    (hplain : PlainName chainId) (hknown : known <+: events)
    (hread : readEvent (repository.readRecord disk chainId) chainId name known.length
      (lastDigest known []) = .ok event) : known ++ [event] <+: events := by
  obtain ⟨later, rfl⟩ := hknown
  obtain ⟨text, htext, -, -, -, -, -, -, hname⟩ := readEvent_eq_ok.mp hread
  rw [hname] at hread htext
  cases later with
  | nil =>
    rw [List.append_nil] at h
    exact absurd (h.free hplain).1 (find_of_readRecord hplain htext)
  | cons next rest =>
    have hnext := (linked_append.mp h.linked).2.1
    rw [Nat.zero_add] at hnext
    cases hnext.symm.trans hread
    exact ⟨rest, by rw [List.append_assoc]; rfl⟩

/-- An appender that creates its record has seen the whole chain. -/
theorem ShowsChain.seen_whole {disk disk' : Disk} {known : List AuditEvent} {input : AuditInput}
    (h : ShowsChain repository disk chainId events) (hplain : PlainName chainId)
    (hknown : known <+: events)
    (hwrote : WroteRecord repository disk chainId (nextEvent chainId known input) disk') :
    known = events := by
  obtain ⟨later, rfl⟩ := hknown
  cases later with
  | nil => exact (List.append_nil known).symm
  | cons next rest =>
    have hnext := (linked_append.mp h.linked).2.1
    rw [Nat.zero_add] at hnext
    obtain ⟨text, htext, -⟩ := readEvent_eq_ok.mp hnext
    have hnone := (disk.tree.create_eq_some (Disk.addFile_eq_some hwrote.added).1).1
    exact absurd hnone (find_of_readRecord hplain htext)

/-! ## Steps and runs -/

/-- An event whose record the reader accepts. -/
structure Recordable (event : AuditEvent) : Prop where
  createdAt : validUtf8 event.createdAt = true
  message : validUtf8 event.message = true
  identifier : event.eventId.length ≤ 128
  short : (recordText event).length ≤ maximumEventBytes
  bound : event.sequence.toNat + 1 < 2 ^ 64

/-- A new record makes the chain longer by its event. -/
theorem ShowsChain.grows {disk disk' : Disk} {input : AuditInput}
    (h : ShowsChain repository disk chainId events) (hplain : PlainName chainId)
    (hvalid : input.valid = true) (hrecordable : Recordable (nextEvent chainId events input))
    (hwrote : WroteRecord repository disk chainId (nextEvent chainId events input) disk') :
    ShowsChain repository disk' chainId (events ++ [nextEvent chainId events input]) := by
  have hbound : (UInt64.ofNat events.length).toNat + 1 < 2 ^ 64 := hrecordable.bound
  rw [UInt64.toNat_ofNat_of_lt' h.bound] at hbound
  exact (h.write_iff hplain hwrote).mpr ⟨rfl, hbound, decode_recordText hvalid
    (h.sealed_next hrecordable.identifier) hrecordable.createdAt hrecordable.message
    hrecordable.short⟩

/-- An input whose texts the reader accepts in a record. -/
structure Readable (input : AuditInput) : Prop where
  createdAt : validUtf8 input.createdAt = true
  message : validUtf8 input.message = true
  short : input.createdAt.length ≤ 4096

/-- Whether the next event can be recorded is a matter of the input, of the identifier of the chain
and of the number of records. -/
theorem ShowsChain.recordable_next {disk : Disk} {known : List AuditEvent} {input : AuditInput}
    (h : ShowsChain repository disk chainId events) (hknown : known <+: events)
    (hvalid : input.valid = true) (hreadable : Readable input)
    (hid : (chainId ++ 0x2e :: decimal known.length).length ≤ 128)
    (hbound : known.length + 1 < 2 ^ 64) : Recordable (nextEvent chainId known input) := by
  have hnumber : (UInt64.ofNat known.length).toNat = known.length :=
    UInt64.toNat_ofNat_of_lt' (Nat.lt_of_succ_lt hbound)
  have hevent : (nextEvent chainId known input).eventId = chainId ++
    0x2e :: decimal known.length := by
    show chainId ++ 0x2e :: decimal (UInt64.ofNat known.length).toNat = _
    rw [hnumber]
  obtain ⟨later, rfl⟩ := hknown
  have hsealed : (nextEvent chainId known input).sealed = true := by
    refine sealed_withDigest ?_ h.identifier (validSha256_lastDigest (linked_append.mp h.linked).1)
    show validIdentifier (nextEvent chainId known input).eventId = true
    rw [hevent]
    exact (validIdentifier_eventId h.identifier _).mpr hid
  refine ⟨hreadable.createdAt, hreadable.message, ?_, ?_, ?_⟩
  · rwa [hevent]
  · exact recordText_length_le hvalid hsealed hreadable.short
  · show (UInt64.ofNat known.length).toNat + 1 < 2 ^ 64
    rwa [hnumber]

namespace World

variable {ι : Type} [DecidableEq ι] {P : AuditInput → Prop}

/-- The chain is valid, and every appender knows a part of it. -/
structure Sound (P : AuditInput → Prop) (repository : AuditRepository) (chainId : Bytes)
    (w : World ι) (events : List AuditEvent) : Prop where
  shows : ShowsChain repository w.disk chainId events
  fits : ∀ i, Fits P chainId events (w.stage i)

/-- The condition on a step: an event that is about to be recorded can be. -/
def Admits (w : World ι) (i : ι) : Prop :=
  ∀ event, w.stage i = .prepared event → Recordable event

theorem Sound.moved {w : World ι} {events' : List AuditEvent} {i : ι} {stage : Stage} {disk : Disk}
    (h : w.Sound P repository chainId events) (hgrows : events <+: events')
    (hshows : ShowsChain repository disk chainId events') (hstage : Fits P chainId events' stage) :
    Sound P repository chainId ⟨disk, Function.update w.stage i stage⟩ events' := by
  refine ⟨hshows, fun j => ?_⟩
  by_cases hj : j = i
  · subst hj
    show Fits P chainId events' (Function.update w.stage j stage j)
    rw [Function.update_self]
    exact hstage
  · show Fits P chainId events' (Function.update w.stage i stage j)
    rw [Function.update_of_ne hj]
    exact (h.fits j).mono hgrows

/-- A step that leaves the file system alone. -/
theorem Sound.stays {w : World ι} {i : ι} {stage : Stage} (h : w.Sound P repository chainId events)
    (hstage : Fits P chainId events stage) :
    ∃ events', Sound P repository chainId ⟨w.disk, Function.update w.stage i stage⟩ events' ∧
      events <+: events' ∧ events'.length ≤ events.length + 1 :=
  ⟨events, h.moved (List.prefix_refl _) h.shows hstage, List.prefix_refl _, Nat.le_succ _⟩

/-- One step keeps the chain valid and makes it longer by one event at most. -/
theorem Sound.step {w : World ι} {events : List AuditEvent}
    (h : w.Sound P repository chainId events) (hplain : PlainName chainId) (i : ι) (choice : Choice)
    (hadmits : w.Admits i) :
    ∃ events', (w.step repository chainId i choice).Sound P repository chainId events' ∧
      events <+: events' ∧ events'.length ≤ events.length + 1 := by
  unfold World.step
  cases hadvance : advance repository chainId w.disk (w.stage i) choice with
  | none => exact ⟨events, h, List.prefix_refl _, Nat.le_succ _⟩
  | some result =>
    obtain ⟨stage, disk⟩ := result
    have hfits := h.fits i
    have hmoves := advance_moves hadvance
    dsimp only
    generalize hbefore : w.stage i = before at hfits hmoves
    cases hmoves with
    | fails _ message => exact h.stays trivial
    | opens input seen hvalid => exact h.stays ⟨hfits, hvalid⟩
    | lists input seen names => exact h.stays ⟨hfits, List.nil_prefix⟩
    | reads input name rest known event hread =>
      exact h.stays ⟨hfits.1, h.shows.reads_on hplain hfits.2 hread⟩
    | prepares input known => exact h.stays ⟨input, known, hfits.1, hfits.2, rfl⟩
    | creates event _ _ hwrite hstage =>
      -- the record was not there, so the appender had seen the whole chain
      obtain ⟨input, known, hvalid, hknown, rfl⟩ := hfits
      have hwrote := writeRecord_eq_ok hplain hwrite
      have hwhole := h.shows.seen_whole hplain hknown hwrote
      subst hwhole
      have hshows := h.shows.grows hplain hvalid.2 (hadmits _ hbefore) hwrote
      have hgrows := List.prefix_append known [nextEvent chainId known input]
      refine ⟨_, h.moved hgrows hshows ?_, hgrows, List.length_append.le⟩
      rcases hstage with rfl | ⟨message, rfl⟩
      · show (known ++ [nextEvent chainId known input])[(UInt64.ofNat known.length).toNat]? = _
        rw [UInt64.toNat_ofNat_of_lt' h.shows.bound, List.getElem?_concat_length]
      · trivial

/-- Every step of the run meets the condition. -/
def Meets (repository : AuditRepository) (chainId : Bytes) : World ι → List (ι × Choice) → Prop
  | _, [] => True
  | w, (i, choice) :: rest =>
    w.Admits i ∧ Meets repository chainId (w.step repository chainId i choice) rest

theorem Sound.run (hplain : PlainName chainId) :
    ∀ {steps : List (ι × Choice)} {w : World ι} {events : List AuditEvent},
      w.Sound P repository chainId events → w.Meets repository chainId steps →
      ∃ events', (w.run repository chainId steps).Sound P repository chainId events' ∧
        events <+: events'
  | [], _, events, h, _ => ⟨events, h, List.prefix_refl _⟩
  | (i, choice) :: rest, w, events, h, ⟨hadmits, hrest⟩ => by
    obtain ⟨middle, hmiddle, hgrows, -⟩ := h.step hplain i choice hadmits
    obtain ⟨events', hrun, hgrows'⟩ := Sound.run hplain hmiddle hrest
    exact ⟨events', hrun, hgrows.trans hgrows'⟩

/-- A run meets the condition if all inputs can be read and the identifiers of the events fit,
however many of its steps create a record. -/
theorem Sound.meets (hplain : PlainName chainId) :
    ∀ {steps : List (ι × Choice)} {w : World ι} {events : List AuditEvent},
      w.Sound Readable repository chainId events →
      (∀ n < events.length + steps.length, (chainId ++ 0x2e :: decimal n).length ≤ 128) →
      events.length + steps.length < 2 ^ 64 → w.Meets repository chainId steps
  | [], _, _, _, _, _ => trivial
  | (i, choice) :: rest, w, events, h, hid, hbound => by
    rw [List.length_cons] at hid hbound
    have hadmits : w.Admits i := by
      intro event hevent
      have hfits := h.fits i
      rw [hevent] at hfits
      obtain ⟨input, known, hvalid, hknown, rfl⟩ := hfits
      have hlength := hknown.length_le
      exact h.shows.recordable_next hknown hvalid.2 hvalid.1 (hid _ (by omega)) (by omega)
    obtain ⟨middle, hmiddle, -, hlength⟩ := h.step hplain i choice hadmits
    exact ⟨hadmits, Sound.meets hplain hmiddle (fun n hn => hid n (by omega)) (by omega)⟩

/-- What is promised of every moment: the chain is valid, and an event that was returned is in it
once, at its place. -/
structure Consistent (repository : AuditRepository) (chainId : Bytes) (w : World ι)
    (events : List AuditEvent) : Prop where
  valid : repository.readAndValidateChain w.disk chainId = .ok events
  returned : ∀ i event, w.stage i = .returned event →
    events.count event = 1 ∧ events[event.sequence.toNat]? = some event

omit [DecidableEq ι] in
theorem Sound.consistent {w : World ι} (h : w.Sound P repository chainId events) :
    w.Consistent repository chainId events := by
  refine ⟨readAndValidateChain_eq_ok.mpr h.shows, fun i event hstage => ?_⟩
  have hfits := h.fits i
  rw [hstage] at hfits
  have hplace : events[event.sequence.toNat]? = some event := hfits
  have hnodup := h.shows.linked.nodup h.shows.bound
  exact ⟨List.count_eq_one_of_mem hnodup (List.mem_of_getElem? hplace), hplace⟩

omit [DecidableEq ι] in
/-- Appenders that have been called know nothing yet. -/
theorem sound_called {w : World ι} (h : repository.readAndValidateChain w.disk chainId = .ok events)
    (hcalled : ∀ i, ∃ input, w.stage i = .called input ∧ P input) :
    w.Sound P repository chainId events := by
  refine ⟨readAndValidateChain_eq_ok.mp h, fun i => ?_⟩
  obtain ⟨input, hinput, hknown⟩ := hcalled i
  rw [hinput]
  exact hknown

end World

/-! ## An appender alone -/

/-- Steps of an appender that no other one interrupts. -/
inductive Alone (repository : AuditRepository) (chainId : Bytes) :
    Stage → Disk → List Choice → Stage → Disk → Prop
  | done (stage : Stage) (disk : Disk) : Alone repository chainId stage disk [] stage disk
  | step {stage stage' last : Stage} {disk disk' final : Disk} {choice : Choice}
      {rest : List Choice}
      (hadvance : advance repository chainId disk stage choice = some (stage', disk'))
      (hrest : Alone repository chainId stage' disk' rest last final) :
    Alone repository chainId stage disk (choice :: rest) last final

theorem Alone.trans {stage middle last : Stage} {disk disk' final : Disk}
    {first second : List Choice} (h : Alone repository chainId stage disk first middle disk')
    (h' : Alone repository chainId middle disk' second last final) :
    Alone repository chainId stage disk (first ++ second) last final := by
  induction h with
  | done => exact h'
  | step hadvance _ ih => exact .step hadvance (ih h')

theorem Alone.run {ι : Type} [DecidableEq ι] {stage last : Stage} {disk final : Disk}
    {choices : List Choice} (h : Alone repository chainId stage disk choices last final) (i : ι) :
    ∀ w : World ι, w.stage i = stage → w.disk = disk →
      w.run repository chainId (choices.map (i, ·)) = ⟨final, Function.update w.stage i last⟩ := by
  induction h with
  | done stage disk =>
    rintro w rfl rfl
    rw [Function.update_eq_self]
    rfl
  | step hadvance _ ih =>
    rintro w rfl rfl
    rw [List.map_cons, World.run, World.step, hadvance]
    rw [ih _ (Function.update_self ..) rfl, Function.update_idem]

/-- Reading the rest of the chain. -/
theorem alone_reading {disk : Disk} {input : AuditInput} :
    ∀ {rest known : List AuditEvent},
      Linked (repository.readRecord disk chainId) chainId rest known.length (lastDigest known []) →
      Alone repository chainId
        (.reading input ((List.range' known.length rest.length).map recordName) known) disk
        (List.replicate rest.length .goes) (.reading input [] (known ++ rest)) disk
  | [], known, _ => by
    rw [List.append_nil]
    exact .done _ _
  | event :: rest, known, ⟨hevent, hrest⟩ => by
    have hlength : (known ++ [event]).length = known.length + 1 := List.length_append
    have hlast : lastDigest (known ++ [event]) [] = event.eventDigest := by
      unfold lastDigest
      rw [List.getLast?_concat]
      rfl
    have ih := @alone_reading disk input rest (known ++ [event]) (by rwa [hlength, hlast])
    rw [hlength, List.append_assoc] at ih
    refine .step ?_ ih
    show some (Stage.ofResult disk (readEvent _ chainId (recordName known.length) known.length
      (lastDigest known [])) _) = _
    rw [hevent]
    rfl

section Advance

variable {disk disk' : Disk} {input : AuditInput}

theorem advance_opens {entries : List (Bytes × Node)}
    (h : openChain repository chainId disk input = .ok entries) :
    advance repository chainId disk (.called input) .goes =
      some (.listing input entries, disk) := by
  unfold advance
  dsimp only
  rw [h]
  rfl

theorem advance_lists {seen listed : List (Bytes × Node)} {names : List Bytes}
    (hadmissible : admissible seen (disk.list (repository.chainRoot chainId).lexicallyNormal)
      listed = true) (hnames : collectNames AuditRepository.unbounded listed 0 = .ok names) :
    advance repository chainId disk (.listing input seen) (.lists listed) =
      some (.reading input (sortNames names) [], disk) := by
  unfold advance
  dsimp only
  rw [if_pos hadmissible, hnames]
  rfl

theorem advance_prepares : advance repository chainId disk (.reading input [] events) .goes =
    some (.prepared (nextEvent chainId events input), disk) :=
  rfl

theorem advance_refused {event : AuditEvent} {message : String}
    (h : repository.writeRecord disk chainId event = .error message) :
    advance repository chainId disk (.prepared event) .goes = some (.failed message, disk) := by
  unfold advance
  dsimp only
  rw [h]

theorem advance_creates {event : AuditEvent}
    (h : repository.writeRecord disk chainId event = .ok disk') :
    advance repository chainId disk (.prepared event) .goes = some (.returned event, disk') := by
  unfold advance
  dsimp only
  rw [h]

end Advance

/-- All entries are listed if nobody interferes. -/
theorem ShowsChain.admissible_entries {disk : Disk} {entries : List (Bytes × Node)}
    (hbound : events.length < 2 ^ 64)
    (hentries : directoryEntries disk repository.chains chainId = .ok entries)
    (hperm : (entries.map Prod.fst).Perm ((List.range events.length).map recordName)) :
    admissible entries (disk.list (repository.chainRoot chainId).lexicallyNormal) entries =
      true := by
  have hlist : disk.list (repository.chainRoot chainId).lexicallyNormal = entries := by
    simp only [directoryEntries, bind_eq_ok] at hentries
    obtain ⟨-, -, -, -, hlist⟩ := hentries
    cases hlist
    rfl
  have hnodup : (entries.map Prod.fst).Nodup := hperm.nodup_iff.mpr (nodup_recordNames hbound.le)
  simp only [admissible, hlist, Bool.and_eq_true, List.all_eq_true, List.contains_iff_mem,
    decide_eq_true_eq]
  exact ⟨⟨fun _ h => h, fun _ h => h⟩, hnodup⟩

/-- An uninterrupted appender reads the chain and prepares the next event. -/
theorem ShowsChain.prepare_alone {disk : Disk} {input : AuditInput}
    (h : ShowsChain repository disk chainId events) (hvalid : input.valid = true) :
    ∃ choices, choices.length = events.length + 3 ∧ Alone repository chainId (.called input) disk
      choices (.prepared (nextEvent chainId events input)) disk := by
  obtain ⟨entries, hentries, hfiles, hperm⟩ := h.listed
  have hopen : openChain repository chainId disk input = .ok entries := by
    simp only [openChain, validateInput, bind_eq_ok, demand_eq_ok]
    exact ⟨(), hvalid, (), h.identifier, (), h.directory, hentries⟩
  have hlists := @advance_lists repository chainId disk input _ _ _
    (ShowsChain.admissible_entries h.bound hentries hperm)
    (collectNames_records h.bound hfiles hperm)
  rw [sortNames_eq h.bound.le hperm, List.range_eq_range'] at hlists
  have hread := @alone_reading repository chainId disk input events [] h.linked
  rw [List.nil_append] at hread
  refine ⟨_, ?_, .step (advance_opens hopen)
    (.step hlists (hread.trans (.step advance_prepares (.done _ _))))⟩
  rw [List.length_cons, List.length_cons, List.length_append, List.length_replicate]
  rfl

/-- An uninterrupted appender does what `append` does. -/
theorem append_alone {disk disk' : Disk} {input : AuditInput} {event : AuditEvent}
    (happend : repository.append disk chainId input = .ok (event, disk')) :
    ∃ choices, Alone repository chainId (.called input) disk choices (.returned event) disk' := by
  obtain ⟨hvalid, events, hshows, rfl, hwrite⟩ := append_eq_ok happend
  obtain ⟨choices, -, hprepared⟩ := hshows.prepare_alone hvalid
  exact ⟨_, hprepared.trans (.step (advance_creates hwrite) (.done _ _))⟩

/-- Two appenders that both read the chain before one of them creates its record: the other one
wants to create the same record and is refused. -/
theorem race {disk disk' : Disk} {input : Bool → AuditInput} {event : AuditEvent}
    (hplain : PlainName chainId) (hvalid : (input false).valid = true)
    (hchain : repository.readAndValidateChain disk chainId = .ok events)
    (happend : repository.append disk chainId (input true) = .ok (event, disk')) :
    ∃ steps message, steps.length = 2 * events.length + 8 ∧
      World.run repository chainId ⟨disk, fun i => .called (input i)⟩ steps =
        ⟨disk', fun i => if i then .returned event else .failed message⟩ := by
  obtain ⟨hvalid', found, hshows, rfl, hwrite⟩ := append_eq_ok happend
  have hfound : found = events :=
    Except.ok.inj ((readAndValidateChain_eq_ok.mpr hshows).symm.trans hchain)
  subst hfound
  obtain ⟨choices, hlength, hfirst⟩ := hshows.prepare_alone hvalid'
  obtain ⟨choices', hlength', hsecond⟩ := hshows.prepare_alone hvalid
  have hsequence : (nextEvent chainId found (input false)).sequence =
      (nextEvent chainId found (input true)).sequence := rfl
  -- both records have one name, and the first one stands there
  obtain ⟨message, hrefused⟩ : ∃ message, repository.writeRecord disk' chainId
      (nextEvent chainId found (input false)) = .error message := by
    cases hagain : repository.writeRecord disk' chainId (nextEvent chainId found (input false)) with
    | error message => exact ⟨message, rfl⟩
    | ok disk'' =>
      have hnone := (disk'.tree.create_eq_some
        (Disk.addFile_eq_some (writeRecord_eq_ok hplain hagain).added).1).1
      rw [hsequence, Disk.find_addFile (writeRecord_eq_ok hplain hwrite).added, if_pos rfl] at hnone
      cases hnone
  -- both appenders read the chain before one of them writes
  have hboth : World.run repository chainId ⟨disk, fun i => .called (input i)⟩
      (choices.map (true, ·) ++ choices'.map (false, ·)) =
        ⟨disk, fun i => .prepared (nextEvent chainId found (input i))⟩ := by
    rw [World.run_append, hfirst.run true _ rfl rfl, hsecond.run false _ rfl rfl]
    refine congrArg (World.mk disk) (funext fun i => ?_)
    cases i with
    | false => rfl
    | true => rfl
  let w : World Bool := ⟨disk, fun i => .prepared (nextEvent chainId found (input i))⟩
  let w' : World Bool :=
    ⟨disk', Function.update w.stage true (.returned (nextEvent chainId found (input true)))⟩
  have hcreates : w.step repository chainId true .goes = w' :=
    w.step_of_advance (advance_creates hwrite)
  have hfails : w'.step repository chainId false .goes =
      ⟨disk', Function.update w'.stage false (.failed message)⟩ := by
    have hstage : w'.stage false = w.stage false :=
      Function.update_of_ne Bool.false_ne_true (.returned (nextEvent chainId found (input true)))
        w.stage
    refine w'.step_of_advance ?_
    rw [hstage]
    exact advance_refused hrefused
  refine ⟨choices.map (true, ·) ++ choices'.map (false, ·) ++ [(true, .goes), (false, .goes)],
    message, ?_, ?_⟩
  · simp only [List.length_append, List.length_map, List.length_cons, List.length_nil, hlength,
      hlength']
    omega
  · rw [World.run_append, hboth, World.run, hcreates, World.run, hfails, World.run]
    refine congrArg (World.mk disk') (funext fun i => ?_)
    cases i with
    | false => rfl
    | true => rfl

/-! ## The chain under concurrent appends -/

/-- In every run whose steps all record readable events, the chain is valid at every moment, an
event that was returned is in it once and at its place, and the chain only grows. -/
theorem concurrent_appends_keep_chain {ι : Type} [DecidableEq ι] {w : World ι}
    {start : List AuditEvent} {steps later : List (ι × Choice)}
    (haccepted : ∃ disk₀ device inode disk₁,
      repository.initializeChain disk₀ chainId device inode = .ok disk₁)
    (hstart : repository.readAndValidateChain w.disk chainId = .ok start)
    (hcalled : ∀ i, ∃ input, w.stage i = .called input)
    (hsteps : w.Meets repository chainId steps)
    (hlater : (w.run repository chainId steps).Meets repository chainId later) :
    ∃ events events', start <+: events ∧ events <+: events' ∧
      (w.run repository chainId steps).Consistent repository chainId events ∧
      ((w.run repository chainId steps).run repository chainId later).Consistent repository chainId
        events' := by
  obtain ⟨_, _, _, _, hinit⟩ := haccepted
  have hplain := (initializeChain_eq_ok hinit).1
  have hsound : w.Sound (fun _ => True) repository chainId start :=
    World.sound_called hstart fun i => (hcalled i).imp fun _ hinput => ⟨hinput, trivial⟩
  obtain ⟨events, hevents, hgrows⟩ := hsound.run hplain hsteps
  obtain ⟨events', hevents', hgrows'⟩ := hevents.run hplain hlater
  exact ⟨events, events', hgrows, hgrows', hevents.consistent, hevents'.consistent⟩

theorem readable_sampleInput : Readable sampleInput :=
  ⟨sampleInput_utf8.1, sampleInput_utf8.2, by decide⟩

theorem readable_laterInput : Readable laterInput :=
  ⟨laterInput_utf8.1, laterInput_utf8.2, by decide⟩

/-- Two appenders both read a chain of one event. One of them returns, and the other one is refused.
-/
theorem sample_concurrent : ∃ (w : World Bool) (steps : List (Bool × Choice))
    (first second : AuditEvent) (message : String),
    sampleRepository.readAndValidateChain w.disk (ascii "audit.fixture") = .ok [first] ∧
    (w.run sampleRepository (ascii "audit.fixture") steps).stage true = .returned second ∧
    (w.run sampleRepository (ascii "audit.fixture") steps).stage false = .failed message ∧
    (w.run sampleRepository (ascii "audit.fixture") steps).Consistent sampleRepository
      (ascii "audit.fixture") [first, second] := by
  obtain ⟨disk, hinit, hplain, hchain⟩ := exists_of_starts starts_fixture
  obtain ⟨disk₁, disk₂, -, hread, hsecond⟩ := exists_two_appends hplain hchain
    ⟨sampleInput_valid, sampleInput_utf8.1, sampleInput_utf8.2, by decide⟩ laterInput_valid
    (by decide) (by decide +kernel)
  let input : Bool → AuditInput := fun i => if i then laterInput else sampleInput
  let w : World Bool := ⟨disk₁, fun i => .called (input i)⟩
  obtain ⟨steps, message, hlength, hrun⟩ :=
    @race _ _ _ _ _ input _ hplain sampleInput_valid hread hsecond
  have hcalled : ∀ i, ∃ input, w.stage i = .called input ∧ Readable input := by
    intro i
    cases i with
    | false => exact ⟨sampleInput, rfl, readable_sampleInput⟩
    | true => exact ⟨laterInput, rfl, readable_laterInput⟩
  have hsound : w.Sound Readable sampleRepository (ascii "audit.fixture") [_] :=
    World.sound_called hread hcalled
  have hmeets : w.Meets sampleRepository (ascii "audit.fixture") steps :=
    World.Sound.meets hplain hsound (by rw [hlength]; decide +kernel) (by rw [hlength]; decide)
  obtain ⟨events, -, -, -, hevents, -⟩ := concurrent_appends_keep_chain ⟨_, _, _, _, hinit⟩
    (show sampleRepository.readAndValidateChain w.disk _ = .ok [_] from hread)
    (fun i => (hcalled i).imp fun _ h => h.1) hmeets (show World.Meets _ _ _ [] from trivial)
  have hfinal := (read_after_append hplain laterInput_utf8.1 laterInput_utf8.2 (by decide) hread
    hsecond).mpr ⟨rfl, by decide +kernel⟩
  have hdisk : (w.run sampleRepository (ascii "audit.fixture") steps).disk = disk₂ :=
    congrArg World.disk hrun
  rw [← hdisk] at hfinal
  cases Except.ok.inj (hevents.valid.symm.trans hfinal)
  exact ⟨w, steps, _, _, message, hread, congrArg (fun w => w.stage true) hrun,
    congrArg (fun w => w.stage false) hrun, hevents⟩

/-- An appender on a chain with the longest identifier returns, and the chain is not valid. -/
theorem concurrent_append_breaks_chain : ∃ (disk : Disk) (steps : List (Unit × Choice))
    (event : AuditEvent),
    sampleRepository.initializeChain sampleDisk longChainId 1 9 = .ok disk ∧
    sampleRepository.readAndValidateChain disk longChainId = .ok [] ∧
    (World.run sampleRepository longChainId ⟨disk, fun _ => .called sampleInput⟩ steps).stage () =
      .returned event ∧
    ∀ events, sampleRepository.readAndValidateChain
      (World.run sampleRepository longChainId ⟨disk, fun _ => .called sampleInput⟩ steps).disk
      longChainId ≠ .ok events := by
  obtain ⟨disk, hinit, hplain, hchain⟩ := exists_of_starts starts_long
  obtain ⟨disk', happend⟩ := (readAndValidateChain_eq_ok.mp hchain).append hplain sampleInput_valid
    (by decide +kernel)
  obtain ⟨choices, halone⟩ := append_alone happend
  have hrun := halone.run () ⟨disk, fun _ => .called sampleInput⟩ rfl rfl
  refine ⟨disk, choices.map ((), ·), nextEvent longChainId [] sampleInput, hinit, hchain, ?_, ?_⟩
  · rw [hrun]
    exact Function.update_self () _ fun _ => Stage.called sampleInput
  · rw [hrun]
    intro events hread
    obtain ⟨-, hlength, -⟩ := (read_after_append hplain sampleInput_utf8.1 sampleInput_utf8.2
      (by decide) hchain happend).mp hread
    revert hlength
    decide +kernel

end Usk.Audit
