import UniversalSetup.Maintenance.Grammar
import Mathlib.Data.Set.Function

/-!
# The journal digest binds the history

The digest that recovery pins is the digest of the last record. Its body holds the number of the
record and the digest of the one before it, and a record is decoded only from its canonical text.
So, walking back from the last record, equal digests mean equal texts all the way down, as long as
SHA-256 does not collide on the bodies of the two histories at hand.
-/

namespace Usk.Maintenance

open Json Transaction

/-- The texts that the digests of these records are taken of. -/
def hashedTexts (records : List (Bytes × Bytes)) : Set Bytes :=
  { t | ∃ entry ∈ records, ∃ o, parse entry.2 recordLimits = .ok (.object o) ∧
    t = canonical (recordBody o) }

theorem hashedTexts_mono {xs ys : List (Bytes × Bytes)} (h : xs ⊆ ys) :
    hashedTexts xs ⊆ hashedTexts ys := by
  rintro t ⟨entry, hmem, o, hp, rfl⟩
  exact ⟨entry, h hmem, o, hp, rfl⟩

/-- A record is its body and the digest of its body. -/
theorem eq_of_recordBody_eq {o o' : Object} {hash : Bytes} (ho : WellFormed (.object o))
    (ho' : WellFormed (.object o')) (hd : (Value.object o).getString "digest" = .ok hash)
    (hd' : (Value.object o').getString "digest" = .ok hash) (h : recordBody o = recordBody o') :
    o = o' := by
  rw [getString_eq_ok, get_object] at hd hd'
  have hs := (wellFormed_object.mp ho).1
  have hs' := (wellFormed_object.mp ho').1
  rw [← ByteMap.insert_erase hs hd, ← ByteMap.insert_erase hs' hd', Value.object.inj h]

theorem wellFormed_recordBody {o : Object} (h : WellFormed (.object o)) :
    WellFormed (recordBody o) := by
  rw [wellFormed_object] at h
  exact wellFormed_object.mpr ⟨ByteMap.sorted_erase h.1 _,
    fun m hm => h.2 m (List.mem_of_mem_filter hm)⟩

/-- Two decoded texts with the same digest are the same text. -/
theorem decodes_digest_unique {text text' : Bytes} {o o' : Object} {hash : Bytes}
    (hinj : sha256 (canonical (recordBody o)) = sha256 (canonical (recordBody o')) →
      canonical (recordBody o) = canonical (recordBody o'))
    (h : Decodes text (.object o)) (h' : Decodes text' (.object o'))
    (hd : (Value.object o).getString "digest" = .ok hash)
    (hd' : (Value.object o').getString "digest" = .ok hash) : o = o' ∧ text = text' := by
  have hw := parse_wellFormed h.parsed
  have hw' := parse_wellFormed h'.parsed
  obtain ⟨_, he, hhash⟩ := h.hashed
  obtain ⟨_, he', hhash'⟩ := h'.hashed
  cases he
  cases he'
  rw [hd, Except.ok.injEq] at hhash
  rw [hd', Except.ok.injEq] at hhash'
  have hbody : recordBody o = recordBody o' :=
    canonical_injective (wellFormed_recordBody hw) (wellFormed_recordBody hw')
      (hinj (hhash.symm.trans hhash'))
  have ho := eq_of_recordBody_eq hw hw' hd hd' hbody
  subst ho
  exact ⟨rfl, h.spelled.symm.trans h'.spelled⟩

section Chain

variable {cwd : Path} {r r' : RecordReader}

/-- The last record read, as the reader that consumed it leaves it. -/
theorem consumeRecord_last {entry : Bytes × Bytes}
    (h : r.consumeRecord cwd entry.1 entry.2 = .ok r') :
    ∃ o rec, Decodes entry.2 (.object o) ∧ recordOf (.object o) = .ok rec ∧
      (Value.object o).getString "digest" = .ok r'.result.journalDigest ∧
      r.Links entry.1 rec := by
  obtain ⟨value, rec, r₁, hdec, -, hrec, hlinks, -, rfl⟩ := RecordReader.consumeRecord_eq_ok.mp h
  obtain ⟨o, rfl, -⟩ := hdec.hashed
  refine ⟨o, rec, hdec, hrec, ?_, hlinks⟩
  simp only [recordOf, bind_eq_ok, pure, Except.pure, Except.ok.injEq] at hrec
  obtain ⟨_, -, _, -, _, -, _, -, _, -, _, -, _, -, _, -, _, -, g, hg, rfl⟩ := hrec
  exact hg

theorem consumeAll_singleton {entry : Bytes × Bytes} (hl : r.Live)
    (h : r.consumeAll cwd [entry] = .ok r') : r.consumeRecord cwd entry.1 entry.2 = .ok r' := by
  obtain ⟨q, hq, he⟩ := (RecordReader.consumeAll_cons hl).mp h
  cases he
  exact hq

/-- Two lists read from the start that end in the same digest are the same list. -/
theorem records_eq_of_digest_eq {q q' : RecordReader} (hl : r.Live) (hl' : r'.Live)
    (h0 : r.result.nextSequence = 0) (h0' : r'.result.nextSequence = 0) :
    ∀ {xs ys : List (Bytes × Bytes)}, xs ≠ [] → ys ≠ [] →
      Set.InjOn sha256 (hashedTexts xs ∪ hashedTexts ys) →
      r.consumeAll cwd xs = .ok q → r'.consumeAll cwd ys = .ok q' →
      q.result.journalDigest = q'.result.journalDigest → xs = ys := by
  intro xs
  -- from the last record back to the first
  induction xs using List.reverseRecOn generalizing q q' with
  | nil => exact fun h => absurd rfl h
  | append_singleton xs e ih =>
    intro ys _ hys hinj hx hy hd
    obtain ⟨ys, e', rfl⟩ := (List.eq_nil_or_concat' ys).resolve_left hys
    obtain ⟨p, hp, hxe⟩ := (RecordReader.consumeAll_append hl).mp hx
    obtain ⟨p', hp', hye⟩ := (RecordReader.consumeAll_append hl').mp hy
    obtain ⟨hs, hn⟩ := RecordReader.consumeAll_frame hl hp
    obtain ⟨hs', hn'⟩ := RecordReader.consumeAll_frame hl' hp'
    obtain ⟨o, rec, hdec, hrec, hdig, hlinks⟩ :=
      consumeRecord_last (consumeAll_singleton (hl.of_same hs) hxe)
    obtain ⟨o', rec', hdec', hrec', hdig', hlinks'⟩ :=
      consumeRecord_last (consumeAll_singleton (hl'.of_same hs') hye)
    obtain ⟨rfl, htext⟩ := decodes_digest_unique
      (hinj (Or.inl ⟨e, by simp, o, hdec.parsed, rfl⟩)
        (Or.inr ⟨e', by simp, o', hdec'.parsed, rfl⟩)) hdec hdec' hdig (hd ▸ hdig')
    rw [hrec, Except.ok.injEq] at hrec'
    subst hrec'
    have hnext : p.result.nextSequence = p'.result.nextSequence :=
      hlinks.numbered.symm.trans hlinks'.numbered
    have he : e = e' := Prod.ext (by rw [hlinks.named, hlinks'.named, hnext]) htext
    have hlen : xs.length = ys.length := by omega
    by_cases hxs : xs = []
    · subst hxs
      rw [List.length_nil, eq_comm, List.length_eq_zero_iff] at hlen
      rw [hlen, he]
    · have hys' : ys ≠ [] := fun h => hxs (List.length_eq_zero_iff.mp (by rw [hlen, h]; rfl))
      have hpos : p.result.nextSequence ≠ 0 := by
        have := List.length_pos_iff.mpr hxs
        omega
      have hprev : p.result.journalDigest = p'.result.journalDigest := by
        have h1 := hlinks.previous
        have h2 := hlinks'.previous
        rw [if_neg hpos] at h1
        rw [if_neg (hnext ▸ hpos)] at h2
        exact Option.some.inj (h1.symm.trans h2)
      have hsub : hashedTexts xs ∪ hashedTexts ys ⊆
          hashedTexts (xs ++ [e]) ∪ hashedTexts (ys ++ [e']) :=
        Set.union_subset_union (hashedTexts_mono (List.subset_append_left _ _))
          (hashedTexts_mono (List.subset_append_left _ _))
      rw [ih hxs hys' (hinj.mono hsub) hp hp' hprev, he]

end Chain

end Usk.Maintenance
