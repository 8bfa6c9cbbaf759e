import UniversalSetup.Lease.History
import Mathlib.Data.Set.Function

/-!
# The current seal binds the history

An active record holds the seal of the record before it. A finished one does not: it keeps the
predecessor of the record that it finishes. But that record is the same one while it was active, so
that here too the seal before can be computed, and the current seal binds all records of the run.
-/

namespace Usk.Lease

open Json

/-- The texts that the seals of these records are taken of. -/
def sealedTexts (records : List Value) : Set Bytes :=
  { text | ∃ members, .object members ∈ records ∧
    text = canonical (.object (ByteMap.erase members (ascii "ownership_sha256"))) }

theorem checkStatus_active : checkStatus Status.active.name Status.active.result = .ok () := rfl

/-- The seal of the record that was current before. -/
def Ownership.previousSeal (o : Ownership) : Option Bytes :=
  match o.status with
  | .active => o.predecessorSha256
  | _ => some ({ o with status := .active, resulted := checkStatus_active } : Ownership).digest

theorem Legal.previousSeal_eq {e : Call × Ownership} {log : List (Call × Ownership)}
    (h : Legal (e :: log)) : e.2.previousSeal = log.head?.map fun p => p.2.digest := by
  cases h with
  | derive _ hd =>
    rw [Ownership.previousSeal, hd.active]
    cases log with
    | nil => exact (hd.first rfl).2
    | cons p rest => exact (hd.later p.2 rfl).2
  | @finish log call o root holder revision handoff hhex _ hactive _ _ =>
    have hsame : ({ o with status := .active, resulted := checkStatus_active } : Ownership) =
      o := by
      cases o
      cases hactive
      rfl
    cases handoff with
    | false => exact congrArg (fun p : Ownership => some p.digest) hsame
    | true => exact congrArg (fun p : Ownership => some p.digest) hsame

theorem Ownership.mem_sealedTexts {o : Ownership} {records : List Value} (h : o.value ∈ records) :
    canonical (.object (ByteMap.ofList o.body)) ∈ sealedTexts records := by
  rw [value_eq_insert] at h
  exact ⟨_, h, by rw [ByteMap.erase_insert o.find_body_seal]⟩

theorem Ownership.eq_of_digest {o o' : Ownership} {records : List Value}
    (hinj : Set.InjOn sha256 (sealedTexts records)) (h : o.value ∈ records)
    (h' : o'.value ∈ records) (hdigest : o.digest = o'.digest) : o = o' := by
  have hbody := canonical_injective (wellFormed_ofList o.nodup_body o.wellFormed_body)
    (wellFormed_ofList o'.nodup_body o'.wellFormed_body)
    (hinj (mem_sealedTexts h) (mem_sealedTexts h') hdigest)
  refine Ownership.value_injective ?_
  rw [value_eq_insert, value_eq_insert, hdigest, Value.object.inj hbody]

/-- The induction takes the newest records off. -/
theorem Legal.eq_of_digest {records : List Value} (hinj : Set.InjOn sha256 (sealedTexts records)) :
    ∀ {log log' : List (Call × Ownership)}, Legal log → Legal log' →
      (∀ e ∈ log ++ log', e.2.value ∈ records) →
      (log.head?.map fun p => p.2.digest) = (log'.head?.map fun p => p.2.digest) →
      log.map Prod.snd = log'.map Prod.snd
  | [], [], _, _, _, _ => rfl
  | [], _ :: _, _, _, _, hseal => by cases hseal
  | _ :: _, [], _, _, _, hseal => by cases hseal
  | e :: rest, e' :: rest', h, h', hmem, hseal => by
    have hsame : e.2 = e'.2 := Ownership.eq_of_digest hinj (hmem e (by simp))
      (hmem e' (by simp)) (Option.some.inj hseal)
    have hbefore := h.previousSeal_eq
    rw [hsame, h'.previousSeal_eq] at hbefore
    rw [List.map_cons, List.map_cons, hsame]
    refine congrArg _ (eq_of_digest hinj h.tail h'.tail (fun p hp => hmem p ?_) hbefore.symm)
    simp only [List.mem_append, List.mem_cons] at hp ⊢
    tauto

/-- Two runs whose current records have the same seal have the same records all the way down.
Collisions are excluded among the texts of the two runs only. -/
theorem current_seal_binds_history {calls calls' : List Call}
    (hinj : Set.InjOn sha256 (sealedTexts (history calls ++ history calls')))
    (hseal : ((current (run calls)).map fun record => record.getString "ownership_sha256") =
      (current (run calls')).map fun record => record.getString "ownership_sha256") :
    history calls = history calls' := by
  obtain ⟨log, hlegal, hrun⟩ := exists_legal calls
  obtain ⟨log', hlegal', hrun'⟩ := exists_legal calls'
  rw [history_eq hrun, history_eq hrun'] at hinj ⊢
  rw [Legal.eq_of_digest hinj hlegal hlegal' ?_ ?_]
  · intro e he
    simp only [← List.map_append, ← List.reverse_append, List.mem_map, List.mem_reverse]
    refine ⟨e.2, ⟨e, ?_, rfl⟩, rfl⟩
    rwa [List.mem_append, or_comm, ← List.mem_append]
  · have hfield (o : Ownership) : o.value.getString "ownership_sha256" = .ok o.digest :=
      o.getString_value "ownership_sha256" rfl
    rw [hrun, hrun', current_map_entry, current_map_entry] at hseal
    cases log <;> cases log' <;> simp_all

/-- SHA-256 does not collide on records with different seals. -/
theorem injOn_sealedTexts {os : List Ownership} {records : List Value}
    (hrecords : ∀ record ∈ records, ∃ o ∈ os, record = o.value)
    (hnodup : (os.map Ownership.digest).Nodup) : Set.InjOn sha256 (sealedTexts records) := by
  have htext : ∀ text ∈ sealedTexts records, ∃ o ∈ os,
      text = canonical (.object (ByteMap.ofList o.body)) := by
    rintro _ ⟨members, hmembers, rfl⟩
    obtain ⟨o, ho, hvalue⟩ := hrecords _ hmembers
    rw [Ownership.value_eq_insert] at hvalue
    exact ⟨o, ho, by rw [Value.object.inj hvalue, ByteMap.erase_insert o.find_body_seal]⟩
  intro text htext₁ text' htext₂ hsame
  obtain ⟨o, ho, rfl⟩ := htext text htext₁
  obtain ⟨o', ho', rfl⟩ := htext text' htext₂
  rw [List.inj_on_of_nodup_map hnodup ho ho' hsame]

set_option maxRecDepth 100000 in
/-- The three records of the sample have different seals. -/
theorem nodup_sampleSeals : ([sampleLease, sampleCompletion, sampleSuccessor false].map
    Ownership.digest).Nodup := by
  decide +kernel

/-- A lease, its completion and a lease that follows, with a call that is refused before them and
without. -/
theorem refused_call_leaves_history :
    history (.finish sampleRoot sampleHolder [] false :: ((sampleLog false).map Prod.fst).reverse) =
      history ((sampleLog false).map Prod.fst).reverse ∧
    (history ((sampleLog false).map Prod.fst).reverse).length = 3 := by
  have hrefused : run (.finish sampleRoot sampleHolder [] false ::
      ((sampleLog false).map Prod.fst).reverse) = run ((sampleLog false).map Prod.fst).reverse :=
        rfl
  have hhistory := history_sampleLog false
  refine ⟨current_seal_binds_history (injOn_sealedTexts ?_ nodup_sampleSeals) (by rw [hrefused]),
    ?_⟩
  · rw [history, hrefused, ← history, hhistory]
    simp
  · rw [hhistory]
    rfl

end Usk.Lease
