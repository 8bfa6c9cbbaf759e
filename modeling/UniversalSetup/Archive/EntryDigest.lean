import UniversalSetup.Archive.Bounds
import UniversalSetup.Base.SelfDelimiting
import Mathlib.Data.Set.Function

/-!
# The digest of the entries

`entry_set_digest` hashes one line for each entry, whose fields end in NUL and whose last field ends
in a line feed. The lines carry no lengths. They can be told apart since no field has the byte in it
that ends it: the paths of an accepted archive are printable.
-/

namespace Usk.Archive

open Json (Result bind_eq_ok)

/-- What the digest says about an entry. -/
structure EntryFrame where
  directory : Bool
  normalizedPath : Bytes
  uncompressedSize : Nat
  compressedSize : Nat
  crc32 : Nat
  compressionMethod : Nat
deriving DecidableEq

def Entry.frame (e : Entry) : EntryFrame :=
  ⟨e.directory, e.normalizedPath, e.uncompressedSize, e.compressedSize, e.crc32,
    e.compressionMethod⟩

/-- The text that is hashed. -/
def entryText (entries : List Entry) : Bytes :=
  entries.flatMap entryLine

theorem foldl_update_lines (entries : List Entry) : ∀ hash : Sha256,
    entries.foldl (fun (hash : Sha256) entry => hash.update (entryLine entry)) hash =
      hash.update (entryText entries) := by
  induction entries with
  | nil => exact fun hash => rfl
  | cons e rest ih =>
    intro hash
    rw [List.foldl_cons, ih, entryText, entryText, List.flatMap_cons, Sha256.update_append]

theorem entrySetDigest_eq (entries : List Entry) :
    entrySetDigest entries = sha256 (entryText entries) := by
  unfold sha256 entrySetDigest
  rw [foldl_update_lines]

/-! ## Lines -/

/-- The words for the two kinds of entries. -/
def kindWord (directory : Bool) : Bytes :=
  if directory then ascii "directory" else ascii "file"

theorem ne_zero_of_mem_kindWord {directory : Bool} : ∀ c ∈ kindWord directory, (c != 0) = true := by
  cases directory <;> decide +kernel

theorem ne_zero_of_mem_decimal {n : Nat} : ∀ c ∈ decimal n, (c != 0) = true := by
  intro c hc
  have hdigit := isDigit_of_mem_decimal hc
  rw [bne_iff_ne]
  rintro rfl
  revert hdigit
  decide

/-- A line tells all fields, and where it ends. -/
theorem entryLine_inj {e e' : Entry} {s t : Bytes} (h : (0 : UInt8) ∉ e.normalizedPath)
    (h' : (0 : UInt8) ∉ e'.normalizedPath) (heq : entryLine e ++ s = entryLine e' ++ t) :
    e.frame = e'.frame ∧ s = t := by
  have hpath : ∀ {path : Bytes}, (0 : UInt8) ∉ path → ∀ c ∈ path, (c != 0) = true := by
    intro path hnul c hc
    rw [bne_iff_ne]
    rintro rfl
    exact hnul hc
  have hfield : ∀ {run run' s t : Bytes}, (∀ c ∈ run, (c != 0) = true) →
      (∀ c ∈ run', (c != 0) = true) → run ++ 0 :: s = run' ++ 0 :: t → run = run' ∧ s = t := by
    intro run run' s t hrun hrun' heq
    obtain ⟨hsame, -, hrest⟩ := append_cons_inj_of_run hrun hrun' rfl rfl heq
    exact ⟨hsame, hrest⟩
  simp only [entryLine, List.append_assoc, List.cons_append, List.nil_append] at heq
  obtain ⟨hkind, heq⟩ := hfield (@ne_zero_of_mem_kindWord e.directory)
    (@ne_zero_of_mem_kindWord e'.directory) heq
  obtain ⟨hnormalized, heq⟩ := hfield (hpath h) (hpath h') heq
  obtain ⟨huncompressed, heq⟩ := hfield ne_zero_of_mem_decimal ne_zero_of_mem_decimal heq
  obtain ⟨hcompressed, heq⟩ := hfield ne_zero_of_mem_decimal ne_zero_of_mem_decimal heq
  obtain ⟨hcrc, heq⟩ := hfield ne_zero_of_mem_decimal ne_zero_of_mem_decimal heq
  obtain ⟨hmethod, -, heq⟩ := append_cons_inj_of_run (fun c hc => isDigit_of_mem_decimal hc)
    (fun c hc => isDigit_of_mem_decimal hc) (by decide) (by decide) heq
  have hdirectory : e.directory = e'.directory := by
    cases hd : e.directory <;> cases hd' : e'.directory <;> rw [hd, hd'] at hkind
    · exact absurd hkind (by decide)
    · exact absurd hkind (by decide)
  refine ⟨?_, heq⟩
  rw [Entry.frame, Entry.frame, hdirectory, hnormalized, decimal_injective huncompressed,
    decimal_injective hcompressed, decimal_injective hcrc, decimal_injective hmethod]

theorem entryLine_ne_nil (e : Entry) : entryLine e ≠ [] :=
  List.append_ne_nil_of_right_ne_nil _ (List.cons_ne_nil _ _)

/-- Lines one after the other tell the list of entries. -/
theorem entryText_inj : ∀ {entries entries' : List Entry},
    (∀ e ∈ entries, (0 : UInt8) ∉ e.normalizedPath) →
    (∀ e ∈ entries', (0 : UInt8) ∉ e.normalizedPath) → entryText entries = entryText entries' →
    entries.map Entry.frame = entries'.map Entry.frame
  | [], [], _, _, _ => rfl
  | [], e :: rest, _, _, heq => absurd (List.append_eq_nil_iff.mp heq.symm).1 (entryLine_ne_nil e)
  | e :: rest, [], _, _, heq => absurd (List.append_eq_nil_iff.mp heq).1 (entryLine_ne_nil e)
  | e :: rest, e' :: rest', h, h', heq => by
    obtain ⟨hframe, hrest⟩ := entryLine_inj (h e List.mem_cons_self) (h' e' List.mem_cons_self) heq
    rw [List.map_cons, List.map_cons, hframe,
      entryText_inj (fun x hx => h x (List.mem_cons_of_mem e hx))
        (fun x hx => h' x (List.mem_cons_of_mem e' hx)) hrest]

/-! ## Accepted archives -/

theorem Entry.Budgeted.printable {budgets : Budgets} {e : Entry} (h : e.Budgeted budgets) :
    (0 : UInt8) ∉ e.normalizedPath := by
  obtain ⟨segments, hname, -⟩ := normalizePath_eq_ok.mp h.normal
  intro hc
  have hrange := (hname.printable _ hc).1
  revert hrange
  decide

theorem entrySetDigest_of_accepted {host : Host} {request : Bytes} {inspection : Inspection}
    (h : inspectZip .wrapping host request = .ok inspection) :
    inspection.entrySetDigest = sha256 (entryText inspection.entries) ∧
      ∀ e ∈ inspection.entries, (0 : UInt8) ∉ e.normalizedPath := by
  rw [inspectZip_exact] at h
  simp only [inspectZip, bind_eq_ok] at h
  obtain ⟨parsed, -, source, -, h⟩ := h
  obtain ⟨hwithin, -⟩ := inspectSource_within h
  refine ⟨?_, fun e he => (hwithin.entries e he).printable⟩
  simp only [inspectSource, bind_eq_ok] at h
  obtain ⟨_, -, sha, -, classic, -, effective, -, _, -, central, -, s, -, _, -, _, -, _, -, _, -,
    h⟩ := h
  cases h
  exact entrySetDigest_eq _

/-- Two accepted archives with one digest, which is no collision, have the same list of entries. -/
theorem entry_set_digest_binds {host host' : Host} {request request' : Bytes}
    {inspection inspection' : Inspection}
    (h : inspectZip .wrapping host request = .ok inspection)
    (h' : inspectZip .wrapping host' request' = .ok inspection')
    (hinj : Set.InjOn sha256 {entryText inspection.entries, entryText inspection'.entries})
    (hdigest : inspection.entrySetDigest = inspection'.entrySetDigest) :
    inspection.entries.map Entry.frame = inspection'.entries.map Entry.frame := by
  obtain ⟨htext, hpaths⟩ := entrySetDigest_of_accepted h
  obtain ⟨htext', hpaths'⟩ := entrySetDigest_of_accepted h'
  rw [htext, htext'] at hdigest
  exact entryText_inj hpaths hpaths'
    (hinj (Set.mem_insert _ _) (Set.mem_insert_of_mem _ rfl) hdigest)

/-- The small archive with a comment behind its end record. -/
def commentedArchive : Bytes :=
  sampleArchive.take 184 ++ littleBytes 2 2 ++ ascii "ok"

def commentedHost : Host :=
  archiveHost commentedArchive

/-- The two archives are different, and have one list of entries. -/
theorem commentedArchive_digest_binds :
    ∃ inspection inspection' : Inspection,
      inspectZip .wrapping sampleHost sampleRequest = .ok inspection ∧
      inspectZip .wrapping commentedHost sampleRequest = .ok inspection' ∧
      inspection.sourceSha256 ≠ inspection'.sourceSha256 ∧
      inspection.entries.map Entry.frame = inspection'.entries.map Entry.frame := by
  have hany : (inspectZip .wrapping sampleHost sampleRequest).toOption.any (fun inspection =>
      (inspectZip .wrapping commentedHost sampleRequest).toOption.any fun inspection' =>
        decide (inspection.sourceSha256 ≠ inspection'.sourceSha256 ∧
          entryText inspection.entries = entryText inspection'.entries ∧
          inspection.entrySetDigest = inspection'.entrySetDigest)) = true := by
    decide +kernel
  obtain ⟨inspection, h, hany⟩ := Json.exists_of_any hany
  obtain ⟨inspection', h', hboth⟩ := Json.exists_of_any hany
  obtain ⟨hsource, htext, hdigest⟩ := of_decide_eq_true hboth
  refine ⟨inspection, inspection', h, h', hsource, entry_set_digest_binds h h' ?_ hdigest⟩
  rw [htext, Set.pair_eq_singleton]
  exact Set.injOn_singleton _ _

end Usk.Archive
