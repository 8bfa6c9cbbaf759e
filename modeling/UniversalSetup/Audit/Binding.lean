import UniversalSetup.Audit.Append
import Mathlib.Data.Set.Function

/-!
# The last digest binds the chain

The digest of an event is taken of a payload that holds all its other members, among them the digest
of the event before. So, walking back from the last event, equal digests mean equal events all the
way down, as long as SHA-256 does not collide on the payloads of the two chains at hand.
-/

namespace Usk.Audit

open Json

/-- The texts that the digests of these events are taken of. -/
def hashedPayloads (events : List AuditEvent) : Set Bytes :=
  { t | ∃ event ∈ events, t = canonical (eventPayload event) }

theorem hashedPayloads_mono {xs ys : List AuditEvent} (h : xs ⊆ ys) :
    hashedPayloads xs ⊆ hashedPayloads ys := by
  rintro t ⟨event, hmem, rfl⟩
  exact ⟨event, h hmem, rfl⟩

/-- An accepted event has the digest of its payload. -/
theorem digest_of_accepted {text : Bytes} {event : AuditEvent}
    (h : decodeAuditEventRecord text = .ok event) :
    sha256 (canonical (eventPayload event)) = event.eventDigest ∧ event.eventDigest ≠ [] := by
  obtain ⟨_, haccepted⟩ := decodeAuditEventRecord_eq_ok.mp h
  have hsealed := haccepted.isSealed
  unfold AuditEvent.sealed at hsealed
  simp only [Bool.and_eq_true, beq_iff_eq] at hsealed
  refine ⟨hsealed.2, fun hnil => ?_⟩
  have hdigest := hsealed.1.1.2
  rw [hnil] at hdigest
  cases hdigest

theorem lastDigest_concat (events : List AuditEvent) (event : AuditEvent) (previous : Bytes) :
    lastDigest (events ++ [event]) previous = event.eventDigest := by
  unfold lastDigest
  rw [List.getLast?_concat]
  rfl

/-- Events with the same digest are the same. -/
theorem eq_of_digest_eq {text text' : Bytes} {event event' : AuditEvent}
    (h : decodeAuditEventRecord text = .ok event) (h' : decodeAuditEventRecord text' = .ok event')
    (hinj : sha256 (canonical (eventPayload event)) = sha256 (canonical (eventPayload event')) →
      canonical (eventPayload event) = canonical (eventPayload event'))
    (hdigest : event.eventDigest = event'.eventDigest) : event = event' := by
  have hhash := (digest_of_accepted h).1
  have hhash' := (digest_of_accepted h').1
  have hpayload := hinj (by rw [hhash, hhash', hdigest])
  exact eq_of_eventPayload_eq (canonical_injective (wellFormed_eventPayload event)
    (wellFormed_eventPayload event') hpayload) hdigest

/-- Linked events are determined by the last digest. The induction takes the last event off. -/
theorem linked_eq_of_lastDigest {read read' : Bytes → Result Bytes} {chainId chainId' : Bytes}
    {events : List AuditEvent} : ∀ {events' : List AuditEvent},
      Linked read chainId events 0 [] → Linked read' chainId' events' 0 [] →
      Set.InjOn sha256 (hashedPayloads events ∪ hashedPayloads events') →
      lastDigest events [] = lastDigest events' [] → events = events' := by
  induction events using List.reverseRecOn with
  | nil =>
    intro events' _ h' _ hdigest
    obtain rfl | ⟨before', last', rfl⟩ := List.eq_nil_or_concat events'
    · rfl
    · rw [List.concat_eq_append] at *
      obtain ⟨_, -, hdecode', -⟩ := readEvent_eq_ok.mp (linked_concat.mp h').2
      rw [lastDigest_concat] at hdigest
      exact absurd hdigest.symm (digest_of_accepted hdecode').2
  | append_singleton before last ih =>
    intro events' h h' hinj hdigest
    obtain ⟨hbefore, hlast⟩ := linked_concat.mp h
    obtain ⟨_, -, hdecode, -, -, -, -, hprevious, -⟩ := readEvent_eq_ok.mp hlast
    rw [lastDigest_concat] at hdigest
    obtain rfl | ⟨before', last', rfl⟩ := List.eq_nil_or_concat events'
    · exact absurd hdigest (digest_of_accepted hdecode).2
    · rw [List.concat_eq_append] at *
      obtain ⟨hbefore', hlast'⟩ := linked_concat.mp h'
      obtain ⟨_, -, hdecode', -, -, -, -, hprevious', -⟩ := readEvent_eq_ok.mp hlast'
      rw [lastDigest_concat] at hdigest
      have hsame : last = last' := by
        refine eq_of_digest_eq hdecode hdecode' (fun hhash => hinj ?_ ?_ hhash) hdigest
        · exact .inl ⟨last, by simp, rfl⟩
        · exact .inr ⟨last', by simp, rfl⟩
      have hlinks : lastDigest before [] = lastDigest before' [] := by
        rw [← hprevious, ← hprevious', hsame]
      have hsub : hashedPayloads before ∪ hashedPayloads before' ⊆
          hashedPayloads (before ++ [last]) ∪ hashedPayloads (before' ++ [last']) :=
        Set.union_subset_union (hashedPayloads_mono (List.subset_append_left _ _))
          (hashedPayloads_mono (List.subset_append_left _ _))
      rw [ih hbefore hbefore' (hinj.mono hsub) hlinks, hsame]

/-- Two chains of one identifier that end with the same digest have the same events. Collisions are
excluded among the payloads of the two chains only. -/
theorem last_digest_binds_chain {repository repository' : AuditRepository} {disk disk' : Disk}
    {chainId : Bytes} {events events' : List AuditEvent} {last last' : AuditEvent}
    (h : repository.readAndValidateChain disk chainId = .ok events)
    (h' : repository'.readAndValidateChain disk' chainId = .ok events')
    (hinj : Set.InjOn sha256 (hashedPayloads events ∪ hashedPayloads events'))
    (hlast : events.getLast? = some last) (hlast' : events'.getLast? = some last')
    (hdigest : last.eventDigest = last'.eventDigest) :
    events.length = events'.length ∧ events = events' := by
  have hlinked := (readAndValidateChain_eq_ok.mp h).linked
  have hlinked' := (readAndValidateChain_eq_ok.mp h').linked
  have hends : lastDigest events [] = lastDigest events' [] := by
    unfold lastDigest
    rw [hlast, hlast']
    exact hdigest
  have heq := linked_eq_of_lastDigest hlinked hlinked' hinj hends
  exact ⟨congrArg List.length heq, heq⟩

/-- Another audit directory, below a root of its own and with a chain of another kind in it. -/
def copyDisk : Disk :=
  .ofEntries [([], .directory 1 1), ([ascii "copy"], .directory 1 2),
    ([ascii "copy", ascii "chains"], .directory 1 3),
    ([ascii "copy", ascii "chains", ascii "audit.other"], .directory 1 4)] (by decide +kernel)

theorem normalPath_copy : NormalPath ⟨ascii "/copy"⟩ [ascii "copy"] false :=
  ⟨by decide +kernel, fun h => absurd h Bool.false_ne_true, by decide +kernel⟩

def copyRepository : AuditRepository :=
  ⟨⟨ascii "/copy"⟩, normalPath_copy.isNormal⟩

theorem starts_copy : starts copyRepository copyDisk (ascii "audit.fixture") = true := by
  decide +kernel

/-- The two events of the sample. -/
def firstEvent : AuditEvent :=
  nextEvent (ascii "audit.fixture") [] sampleInput

def secondEvent : AuditEvent :=
  nextEvent (ascii "audit.fixture") [firstEvent] laterInput

/-- The second event behind one with a given digest. -/
def eventBehind (digest : Bytes) : AuditEvent :=
  { laterInput with
    eventId := ascii "audit.fixture.1"
    eventDigest := []
    auditChainId := ascii "audit.fixture"
    sequence := 1
    previousEventDigest := digest }

def firstDigest : Bytes :=
  ascii "29be38e361392156d8fd96a4e0b4914787bb1ff0a24eb7ab87e902789630b88a"

theorem firstEvent_digest : firstEvent.eventDigest = firstDigest := by
  decide +kernel

theorem secondEvent_digest_ne :
    sha256 (canonical (eventPayload (eventBehind firstDigest))) ≠ firstDigest := by
  decide +kernel

theorem injOn_samplePayloads : Set.InjOn sha256 (hashedPayloads [firstEvent, secondEvent]) := by
  have hfirst : sha256 (canonical (eventPayload firstEvent)) = firstDigest := firstEvent_digest
  have hsecond : sha256 (canonical (eventPayload secondEvent)) ≠ firstDigest := by
    show sha256 (canonical (eventPayload (eventBehind firstEvent.eventDigest))) ≠ firstDigest
    rw [firstEvent_digest]
    exact secondEvent_digest_ne
  rintro _ ⟨e, he, rfl⟩ _ ⟨e', he', rfl⟩ hsame
  rcases List.mem_pair.mp he with rfl | rfl <;> rcases List.mem_pair.mp he' with rfl | rfl
  · rfl
  · exact absurd (hsame.symm.trans hfirst) hsecond
  · exact absurd (hsame.trans hfirst) hsecond
  · rfl

/-- Two events are appended to a new chain. -/
theorem exists_sample_chain {repository : AuditRepository} {disk : Disk}
    (h : starts repository disk (ascii "audit.fixture") = true)
    (hshort : ∀ n < 2, (repository.recordPath (ascii "audit.fixture")
      (UInt64.ofNat n)).native.length < Disk.pathMax) :
    ∃ disk', repository.readAndValidateChain disk' (ascii "audit.fixture") =
      .ok [firstEvent, secondEvent] := by
  obtain ⟨disk₀, -, hplain, hchain⟩ := exists_of_starts h
  obtain ⟨disk₁, disk₂, -, hread, hsecond⟩ := exists_two_appends hplain hchain
    ⟨sampleInput_valid, sampleInput_utf8.1, sampleInput_utf8.2, by decide⟩ laterInput_valid
    (by decide) hshort
  exact ⟨disk₂, (read_after_append hplain laterInput_utf8.1 laterInput_utf8.2 (by decide) hread
    hsecond).mpr ⟨rfl, by decide +kernel⟩⟩

/-- The chains of two directories, with two events that end with the same digest. -/
theorem sample_chain_bound : ∃ disk disk' events events' last last',
    sampleRepository.readAndValidateChain disk (ascii "audit.fixture") = .ok events ∧
    copyRepository.readAndValidateChain disk' (ascii "audit.fixture") = .ok events' ∧
    events.getLast? = some last ∧ events'.getLast? = some last' ∧
    last.eventDigest = last'.eventDigest ∧ events.length = 2 ∧
    events.length = events'.length ∧ events = events' := by
  obtain ⟨disk, hread⟩ := exists_sample_chain starts_fixture (by decide +kernel)
  obtain ⟨disk', hread'⟩ := exists_sample_chain starts_copy (by decide +kernel)
  have hinj : Set.InjOn sha256 (hashedPayloads [firstEvent, secondEvent] ∪
      hashedPayloads [firstEvent, secondEvent]) := by
    rw [Set.union_self]
    exact injOn_samplePayloads
  exact ⟨disk, disk', _, _, secondEvent, secondEvent, hread, hread', rfl, rfl, rfl, rfl,
    last_digest_binds_chain hread hread' hinj rfl rfl rfl⟩

end Usk.Audit
