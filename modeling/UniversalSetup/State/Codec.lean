import UniversalSetup.State.Snapshot

/-!
# What the readers of durable records accept

A reader asks for exact member sets and for a canonical text. What it returns therefore says
everything about the document: it is the document that the writer makes of it. For installed states
the text follows up to the end of its line. A manifest is sorted by its reader, after the text was
compared, so that its text follows only if the lists were in order there.
-/

namespace Usk.Json

/-- A value with exactly the members that were read is the document of these members. -/
theorem eq_object_of_members {v : Value} {expected : List String} {message : String} {u : Unit}
    {ms : List (Bytes × Value)} (hw : WellFormed v) (h : exactKeys v expected message = .ok u)
    (hnd : (ByteMap.keys ms).Nodup) (hkeys : (ByteMap.keys ms).Perm (expected.map ascii))
    (hget : ∀ m ∈ ms, ∃ key, ascii key = m.1 ∧ v.get key = .ok m.2) :
    v = .object (ByteMap.ofList ms) := by
  obtain ⟨o, rfl, ho⟩ := exactKeys_eq_ok.mp h
  refine congrArg Value.object (eq_ofList_of_members (wellFormed_object.mp hw).1 hnd ?_ ?_)
  · intro k hk
    exact hkeys.mem_iff.mpr ((ho k).mp hk)
  · intro m hm
    obtain ⟨key, hkey, hvalue⟩ := hget m hm
    rw [← hkey]
    exact get_object.mp hvalue

/-- Either end of the line is white space to the parser. -/
theorem parse_canonical_line {v : Value} {text : Bytes} (hw : WellFormed v)
    (hlength : text.length ≤ ParseLimits.maxBytes {}) (hallow : ParseLimits.Allow {} v)
    (hends : text = canonical v ++ lineFeed ∨ text = canonical v ++ carriageReturnLineFeed) :
    parse text {} = .ok v := by
  have hread : ∀ {tail : Bytes}, Blank tail →
      (canonical v ++ tail).length ≤ ParseLimits.maxBytes {} →
        parse (canonical v ++ tail) {} = .ok v := by
    intro tail hblank hle
    refine (run_encodes _ (encodes_canonical hw) hblank).1 ⟨hle, ?_⟩
    obtain ⟨hdepth, hcount, hstrings⟩ := hallow
    exact ⟨Nat.lt_succ_of_le hdepth, by rwa [Nat.zero_add], hstrings⟩
  rcases hends with rfl | rfl
  · exact hread (blank_cons.mpr ⟨by decide, blank_nil⟩) hlength
  · exact hread (blank_cons.mpr ⟨by decide, blank_cons.mpr ⟨by decide, blank_nil⟩⟩) hlength

/-- Items that were read one by one were written one by one. -/
theorem eq_map_of_mapM {α : Type} {read : Value → Result α} {write : α → Value} :
    ∀ {items : List Value} {xs : List α}, items.mapM read = .ok xs →
      (∀ item ∈ items, ∀ x, read item = .ok x → item = write x) → items = xs.map write
  | [], xs, h, _ => by
    cases h
    rfl
  | item :: rest, xs, h, hread => by
    simp only [List.mapM_cons, bind_eq_ok] at h
    obtain ⟨x, hx, tail, htail, hxs⟩ := h
    cases hxs
    have ih := eq_map_of_mapM htail fun other hother => hread other (List.mem_cons_of_mem _ hother)
    rw [List.map_cons, ← ih, ← hread item List.mem_cons_self x hx]

end Usk.Json

namespace Usk.State

open Json

/-! ## Installed states -/

theorem eq_of_readEntrypoint {item : Value} {entrypoint : Entrypoint} (hw : WellFormed item)
    (h : readEntrypoint item = .ok entrypoint) : item = entrypointValue entrypoint := by
  simp only [readEntrypoint, bind_eq_ok, getString_eq_ok] at h
  obtain ⟨_, hmembers, entrypointId, hid, relativePath, hpath, kind, hkind, heq⟩ := h
  cases heq
  refine eq_object_of_members hw hmembers (nodup_entrypointMembers _)
    ((List.Perm.swap _ _ []).cons _) ?_
  simp only [entrypointMembers, List.forall_mem_cons]
  exact ⟨⟨_, rfl, hid⟩, ⟨_, rfl, hkind⟩, ⟨_, rfl, hpath⟩, List.forall_mem_nil _⟩

theorem eq_of_readVerification {value : Value} {summary : VerificationSummary}
    (hw : WellFormed value) (h : readVerification value = .ok summary) :
    value = .object (ByteMap.ofList (verificationMembers summary)) := by
  simp only [readVerification, bind_eq_ok, getString_eq_ok] at h
  obtain ⟨_, hmembers, reportId, hid, reportDigest, hdigest, status, hstatus,
    verifiedAt, hat, heq⟩ := h
  cases heq
  refine eq_object_of_members hw hmembers (nodup_verificationMembers _) (List.Perm.swap _ _ _) ?_
  simp only [verificationMembers, List.forall_mem_cons]
  exact ⟨⟨_, rfl, hdigest⟩, ⟨_, rfl, hid⟩, ⟨_, rfl, hstatus⟩, ⟨_, rfl, hat⟩, List.forall_mem_nil _⟩

theorem eq_of_parseInstalled {value : Value} {state : InstalledState} (hw : WellFormed value)
    (h : parseInstalled value = .ok state) :
    value = installedDocument state ∧ validateInstalled state = .ok () := by
  simp only [parseInstalled, bind_eq_ok, demand_eq_ok, Bool.and_eq_true, beq_iff_eq] at h
  obtain ⟨_, hmembers, schema, hschema, scope, hscope, -, ⟨rfl, rfl⟩, found, hread,
    _, hvalid, heq⟩ := h
  cases heq
  refine ⟨?_, hvalid⟩
  rw [readScope, if_pos (beq_self_eq_true _), getString_eq_ok] at hscope
  rw [getString_eq_ok] at hschema
  simp only [readState, bind_eq_ok, getString_eq_ok, asArray_eq_ok, asUnsigned_eq_ok] at hread
  obtain ⟨installId, hinstall, productId, hproduct, productVersion, hversion, recipeDigest, hrecipe,
    sourceArchiveDigest, harchive, targetRoot, hroot, _, hselection, items, rfl, componentSelection,
    hcomponents, ownershipManifestRef, href, ownershipManifestDigest, hmanifest, _, hpoints, points,
    rfl, entrypoints, hentrypoints, abi, habi, _, habiMembers, _, hmajor, setupAbiMajor, rfl, _,
    hminor, setupAbiMinor, rfl, providerRevision, hprovider, transactionId, htransaction, createdAt,
    hcreated, verification, hverification, lastVerification, hlast, auditChainId, hchain,
    lifecycleStatus, hstatus, heq⟩ := hread
  have hselected := eq_map_of_mapM hcomponents fun _ _ x hx => asString_eq_ok.mp hx
  have hpointed := eq_map_of_mapM hentrypoints fun item hitem x hx => eq_of_readEntrypoint
    (wellFormed_array.mp (wellFormed_get hw hpoints) item hitem) hx
  have hsummary := eq_of_readVerification (wellFormed_get hw hverification) hlast
  have hversioned : abi = .object (ByteMap.ofList (setupAbiMembers state)) := by
    cases heq
    refine eq_object_of_members (wellFormed_get hw habi) habiMembers (nodup_setupAbiMembers _)
      (List.Perm.refl _) ?_
    simp only [setupAbiMembers, List.forall_mem_cons]
    exact ⟨⟨_, rfl, hmajor⟩, ⟨_, rfl, hminor⟩, ⟨_, rfl, hprovider⟩, List.forall_mem_nil _⟩
  subst hselected hpointed hsummary hversioned
  cases heq
  refine eq_object_of_members hw hmembers (nodup_members _) (keys_members_perm _) ?_
  simp only [InstalledState.members, List.forall_mem_cons]
  exact ⟨⟨_, rfl, hchain⟩, ⟨_, rfl, hselection⟩, ⟨_, rfl, hcreated⟩, ⟨_, rfl, hpoints⟩,
    ⟨_, rfl, hinstall⟩, ⟨_, rfl, hverification⟩, ⟨_, rfl, hstatus⟩, ⟨_, rfl, hmanifest⟩,
    ⟨_, rfl, href⟩, ⟨_, rfl, hproduct⟩, ⟨_, rfl, hversion⟩, ⟨_, rfl, hrecipe⟩, ⟨_, rfl, hschema⟩,
    ⟨_, rfl, habi⟩, ⟨_, rfl, harchive⟩, ⟨_, rfl, hroot⟩, ⟨_, rfl, hscope⟩, ⟨_, rfl, htransaction⟩,
    List.forall_mem_nil _⟩

/-- The records of a state: its line with either end. -/
theorem decodeInstalledRecord_eq_ok {text : Bytes} {state : InstalledState} :
    decodeInstalledRecord text = .ok state ↔ validateInstalled state = .ok () ∧
      text.length ≤ maximumInstalledBytes ∧ ParseLimits.Allow {} (installedDocument state) ∧
      (text = canonical (installedDocument state) ++ lineFeed ∨
        text = canonical (installedDocument state) ++ carriageReturnLineFeed) := by
  simp only [decodeInstalledRecord, bind_eq_ok, demand_eq_ok, decide_eq_true_eq, readLine_eq_ok]
  constructor
  · rintro ⟨-, hlength, document, ⟨hparse, hends⟩, hstate⟩
    obtain ⟨rfl, hvalid⟩ := eq_of_parseInstalled (parse_wellFormed hparse) hstate
    exact ⟨hvalid, hlength, (parse_allow hparse).2, hends⟩
  · rintro ⟨hvalid, hlength, hallow, hends⟩
    exact ⟨(), hlength, _, ⟨parse_canonical_line (wellFormed_installedDocument state) hlength hallow
      hends, hends⟩, parseInstalled_document hvalid⟩

/--
Writing and reading a state undo each other: what is written is read again, and what is read out of
a text is written as that text, up to the end of its line.
-/
theorem installed_record_bijective :
    (∀ state, validateInstalled state = .ok () → state.Readable →
      ∃ text, serializeInstalledState state = .ok text ∧ decodeInstalledRecord text = .ok state) ∧
    ∀ text state, decodeInstalledRecord text = .ok state →
      ∃ body, serializeInstalledState state = .ok (body ++ lineFeed) ∧
        (text = body ++ lineFeed ∨ text = body ++ carriageReturnLineFeed) ∧
        decodeInstalledRecord (body ++ lineFeed) = .ok state := by
  have hserialize : ∀ {state}, validateInstalled state = .ok () →
      serializeInstalledState state = .ok (installedRecord state) := by
    intro state hvalid
    simp only [serializeInstalledState, bind_eq_ok]
    exact ⟨(), hvalid, rfl⟩
  refine ⟨fun state hvalid hreadable => ⟨_, hserialize hvalid, ?_⟩, fun text state h => ?_⟩
  · exact decodeInstalledRecord_eq_ok.mpr ⟨hvalid, hreadable.1, hreadable.2, .inl rfl⟩
  · obtain ⟨hvalid, hlength, hallow, hends⟩ := decodeInstalledRecord_eq_ok.mp h
    refine ⟨_, hserialize hvalid, hends, decodeInstalledRecord_eq_ok.mpr
      ⟨hvalid, ?_, hallow, .inl rfl⟩⟩
    rcases hends with rfl | rfl
    · exact hlength
    · simp only [List.length_append, lineFeed, carriageReturnLineFeed, List.length_cons,
        List.length_nil] at hlength ⊢
      omega

/-- The state of the viewer is written and read back. -/
theorem viewerState_codec :
    ∃ text body, serializeInstalledState (stateOf viewerManifest.recorded) = .ok text ∧
      decodeInstalledRecord text = .ok (stateOf viewerManifest.recorded) ∧
      serializeInstalledState (stateOf viewerManifest.recorded) = .ok (body ++ lineFeed) := by
  obtain ⟨text, hwrite, hread⟩ := installed_record_bijective.1 _ viewer_valid viewer_readable
  obtain ⟨body, hagain, -⟩ := installed_record_bijective.2 _ _ hread
  exact ⟨text, body, hwrite, hread, hagain⟩

/-! ## Ownership manifests -/

theorem eq_of_readOwnedFile {item : Value} {file : OwnedFile} (hw : WellFormed item)
    (h : readOwnedFile item = .ok file) : item = ownedFileValue file := by
  simp only [readOwnedFile, bind_eq_ok, getString_eq_ok, asUnsigned_eq_ok] at h
  obtain ⟨_, hmembers, relativePath, hpath, sha256, hdigest, _, hsize, sizeBytes, rfl, heq⟩ := h
  cases heq
  refine eq_object_of_members hw hmembers (nodup_ownedFileMembers _) (List.Perm.refl _) ?_
  simp only [ownedFileMembers, List.forall_mem_cons]
  exact ⟨⟨_, rfl, hpath⟩, ⟨_, rfl, hdigest⟩, ⟨_, rfl, hsize⟩, List.forall_mem_nil _⟩

theorem eq_of_readOwnedDirectory {item : Value} {directory : Bytes} (hw : WellFormed item)
    (h : readOwnedDirectory item = .ok directory) : item = ownedDirectoryValue directory := by
  simp only [readOwnedDirectory, bind_eq_ok, getString_eq_ok] at h
  obtain ⟨_, hmembers, hpath⟩ := h
  exact eq_object_of_members hw hmembers (List.nodup_singleton _) (List.Perm.refl _)
    (List.forall_mem_singleton.mpr ⟨_, rfl, hpath⟩)

/-- The manifest as it stands in the text, before it is sorted. -/
theorem eq_of_parseOwnership {value : Value} {manifest : OwnershipManifest} (hw : WellFormed value)
    (h : parseOwnership value = .ok manifest) :
    ∃ raw, value = ownershipDocument raw ∧ readManifest value = .ok raw ∧ manifest =
      raw.sorted := by
  simp only [parseOwnership, bind_eq_ok, demandString_eq_ok, beq_iff_eq] at h
  obtain ⟨_, hmembers, _, ⟨schema, hschema, rfl⟩, raw, hread, hvalid⟩ := h
  refine ⟨raw, ?_, hread, (validateOwnership_eq_ok.mp hvalid).2.symm⟩
  simp only [readManifest, bind_eq_ok, getString_eq_ok, asArray_eq_ok] at hread
  obtain ⟨manifestId, hid, manifestDigest, hdigest, installId, hinstall, targetRoot, hroot,
    createdByTransactionId, htransaction, _, hfiles, items, rfl, files, hread, _, hdirectories,
      names,
    rfl, directories, hnames, heq⟩ := hread
  have hlisted := eq_map_of_mapM hread fun item hitem x hx => eq_of_readOwnedFile
    (wellFormed_array.mp (wellFormed_get hw hfiles) item hitem) hx
  have hnamed := eq_map_of_mapM hnames fun item hitem x hx => eq_of_readOwnedDirectory
    (wellFormed_array.mp (wellFormed_get hw hdirectories) item hitem) hx
  subst hlisted hnamed
  cases heq
  rw [ownershipDocument_eq]
  refine eq_object_of_members hw hmembers (nodup_allMembers _) (keys_allMembers_perm _) ?_
  simp only [OwnershipManifest.allMembers, OwnershipManifest.members, List.cons_append,
    List.nil_append, List.forall_mem_cons]
  exact ⟨⟨_, rfl, htransaction⟩, ⟨_, rfl, hdirectories⟩, ⟨_, rfl, hfiles⟩, ⟨_, rfl, hinstall⟩,
    ⟨_, rfl, hid⟩, ⟨_, rfl, hschema⟩, ⟨_, rfl, hroot⟩, ⟨_, rfl, hdigest⟩, List.forall_mem_nil _⟩

theorem wellFormed_ownershipDocument (manifest : OwnershipManifest) :
    WellFormed (ownershipDocument manifest) := by
  have hfiles : WellFormed (.array (manifest.files.map ownedFileValue)) := by
    refine wellFormed_array.mpr (List.forall_mem_map.mpr fun file _ => ?_)
    refine wellFormed_ofList (nodup_ownedFileMembers file) ?_
    simp only [ownedFileMembers, List.forall_mem_cons]
    exact ⟨trivial, trivial, trivial, List.forall_mem_nil _⟩
  have hdirectories : WellFormed (.array (manifest.directories.map ownedDirectoryValue)) :=
    wellFormed_array.mpr (List.forall_mem_map.mpr fun _ _ =>
      wellFormed_ofList (List.nodup_singleton _) (List.forall_mem_singleton.mpr trivial))
  rw [ownershipDocument_eq]
  refine wellFormed_ofList (nodup_allMembers manifest) ?_
  simp only [OwnershipManifest.allMembers, OwnershipManifest.members, List.cons_append,
    List.nil_append, List.forall_mem_cons]
  exact ⟨trivial, hdirectories, hfiles, trivial, trivial, trivial, trivial, trivial,
    List.forall_mem_nil _⟩

theorem ownershipDocument_injective {manifest other : OwnershipManifest}
    (h : ownershipDocument manifest = ownershipDocument other) : manifest = other := by
  have hread := readManifest_document manifest
  rw [h, readManifest_document] at hread
  exact (Except.ok.inj hread).symm

/-- The lists of the manifest in the text are in the order that `validate_ownership` sorts them to.
-/
def InOrder (text : Bytes) : Prop :=
  ∃ document manifest, parse text {} = .ok document ∧ readManifest document = .ok manifest ∧
    manifest.sorted = manifest

/-- The text is the line of the manifest, with either end. -/
def IsLineOf (manifest : OwnershipManifest) (text : Bytes) : Prop :=
  text = canonical (ownershipDocument manifest) ++ lineFeed ∨
    text = canonical (ownershipDocument manifest) ++ carriageReturnLineFeed

/-- A manifest has no other accepted text than its line exactly as far as texts are in order: the
text is compared before the manifest is sorted, and the digest is over the sorted manifest. -/
theorem ownership_text_canonical_iff {text manifestId : Bytes} {manifest : OwnershipManifest}
    (h : decodeOwnershipRecord text manifestId = .ok manifest) :
    IsLineOf manifest text ↔ InOrder text := by
  simp only [decodeOwnershipRecord, bind_eq_ok, demand_eq_ok, readLine_eq_ok] at h
  obtain ⟨-, -, -, -, document, ⟨hparse, hends⟩, found, hfound, -, -, -, -, heq⟩ := h
  cases heq
  obtain ⟨raw, hdocument, hread, rfl⟩ := eq_of_parseOwnership (parse_wellFormed hparse) hfound
  constructor
  · intro hline
    have hsame : document = ownershipDocument raw.sorted :=
      canonical_injective (parse_wellFormed hparse) (wellFormed_ownershipDocument _)
        (canonical_eq_of_line hends hline)
    refine ⟨document, raw, hparse, hread, ?_⟩
    exact ownershipDocument_injective (hsame.symm.trans hdocument)
  · rintro ⟨other, listed, hparse', hread', hsorted⟩
    cases hparse.symm.trans hparse'
    cases hread.symm.trans hread'
    rw [IsLineOf, hsorted, ← hdocument]
    exact hends

/-- A manifest with two directories, in this order. -/
def twoDirectories (first second : Bytes) : OwnershipManifest :=
  { sampleManifest with
    files := []
    directories := [first, second]
    manifestDigest := ownershipDigest
      { sampleManifest with files := [], directories := [ascii "a", ascii "b"] } }

/-- A manifest with two directories in order is the text of its record. -/
theorem orderedText_canonical :
    decodeOwnershipRecord (ownershipRecord (twoDirectories (ascii "a") (ascii "b")))
        (ascii "editor") = .ok (twoDirectories (ascii "a") (ascii "b")) ∧
      InOrder (ownershipRecord (twoDirectories (ascii "a") (ascii "b"))) := by
  have hdecode : decodeOwnershipRecord (ownershipRecord (twoDirectories (ascii "a") (ascii "b")))
      (ascii "editor") = .ok (twoDirectories (ascii "a") (ascii "b")) :=
    toOption_eq_some.mp (by decide +kernel)
  exact ⟨hdecode, (ownership_text_canonical_iff hdecode).mp (.inl rfl)⟩

/-- The text with the two directories swapped is a second record of the manifest. -/
theorem swapped_directories_accepted :
    decodeOwnershipRecord (ownershipRecord (twoDirectories (ascii "b") (ascii "a")))
        (ascii "editor") = .ok (twoDirectories (ascii "a") (ascii "b")) ∧
      ¬IsLineOf (twoDirectories (ascii "a") (ascii "b"))
        (ownershipRecord (twoDirectories (ascii "b") (ascii "a"))) := by
  refine ⟨toOption_eq_some.mp (by decide +kernel), fun hline => ?_⟩
  have hsame := ownershipDocument_injective (canonical_injective (wellFormed_ownershipDocument _)
    (wellFormed_ownershipDocument _) (canonical_eq_of_line (.inl rfl) hline))
  revert hsame
  decide +kernel

end Usk.State
