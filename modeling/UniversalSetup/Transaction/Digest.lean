import UniversalSetup.Transaction.Decode
import Mathlib.Data.Set.Function

/-!
# What the journal digest binds

`journal_digest` is taken over a text in which the fields of a transition are separated by zero
bytes and transitions by newlines. The decoder fixes every field but `recorded_at`, which may be any
string. So the text can be split in more than one way exactly when a `recorded_at` contains a
newline and, behind it, the text of further transitions. `Absorbs` is that case.
-/

namespace Usk.Transaction

open Json

/-- `us` is `ts` with one `recorded_at` continued over the text of the transitions behind it. -/
def Absorbs (ts us : List Transition) : Prop :=
  ∃ pre t rest rest' w, ts = pre ++ t :: rest ∧
    us = pre ++ { t with recordedAt := t.recordedAt ++ 0x0a :: w } :: rest' ∧
    chainText rest = w ++ 0x0a :: chainText rest'

/-! ## Splitting the text -/

/-- A separator that neither part contains splits a text in one way only. -/
theorem append_separator_inj {s : UInt8} : ∀ {a b x y : Bytes}, s ∉ a → s ∉ b →
    a ++ s :: x = b ++ s :: y → a = b ∧ x = y
  | [], [], x, y, _, _, h => by
    cases h
    exact ⟨rfl, rfl⟩
  | [], c :: b, x, y, _, hb, h => by
    cases h
    exact absurd List.mem_cons_self hb
  | c :: a, [], x, y, ha, _, h => by
    cases h
    exact absurd List.mem_cons_self ha
  | c :: a, d :: b, x, y, ha, hb, h => by
    rw [List.cons_append, List.cons_append, List.cons.injEq] at h
    rw [List.mem_cons, not_or] at ha hb
    obtain ⟨rfl, hx⟩ := append_separator_inj ha.2 hb.2 h.2
    exact ⟨by rw [h.1], hx⟩

theorem State.zero_not_mem_name (s : State) : (0x00 : UInt8) ∉ s.name := by
  cases s <;> decide

theorem chainText_cons (t : Transition) (ts : List Transition) :
    chainText (t :: ts) = decimal t.sequence.toNat ++ 0x00 :: (State.text t.fromState ++
      0x00 :: (t.toState.name ++ 0x00 :: (t.recordedAt ++ 0x0a :: chainText ts))) := by
  rw [chainText, List.flatMap_cons, ← chainText, Transition.chainText]
  simp only [List.append_assoc, List.cons_append, List.nil_append]

theorem chainText_ne_nil (t : Transition) (ts : List Transition) : chainText (t :: ts) ≠ [] := by
  rw [chainText_cons]
  simp

/-- Two continuations of a text by a newline are the same, or one goes on where the other ends. -/
theorem newline_split {a b x y : Bytes} (h : a ++ 0x0a :: x = b ++ 0x0a :: y) :
    (a = b ∧ x = y) ∨ (∃ w, b = a ++ 0x0a :: w ∧ x = w ++ 0x0a :: y) ∨
      (∃ w, a = b ++ 0x0a :: w ∧ y = w ++ 0x0a :: x) := by
  rcases List.append_eq_append_iff.mp h with ⟨c, hb, hx⟩ | ⟨c, ha, hy⟩
  · cases c with
    | nil => exact Or.inl ⟨by simpa using hb.symm, by simpa using hx⟩
    | cons d w =>
      rw [List.cons_append, List.cons.injEq] at hx
      exact Or.inr (Or.inl ⟨w, by rw [hb, hx.1], hx.2⟩)
  · cases c with
    | nil => exact Or.inl ⟨by simpa using ha, by simpa using hy.symm⟩
    | cons d w =>
      rw [List.cons_append, List.cons.injEq] at hy
      exact Or.inr (Or.inr ⟨w, by rw [ha, hy.1], hy.2⟩)

theorem Absorbs.cons {ts us : List Transition} (t : Transition) (h : Absorbs ts us) :
    Absorbs (t :: ts) (t :: us) := by
  obtain ⟨pre, v, rest, rest', w, rfl, rfl, hw⟩ := h
  exact ⟨t :: pre, v, rest, rest', w, rfl, rfl, hw⟩

/-- Absorption changes the list and keeps the text. -/
theorem Absorbs.chainText_eq {ts us : List Transition} (h : Absorbs ts us) :
    chainText ts = chainText us ∧ ts ≠ us := by
  obtain ⟨pre, t, rest, rest', w, rfl, rfl, hw⟩ := h
  constructor
  · rw [chainText, chainText, List.flatMap_append, List.flatMap_append, ← chainText, ← chainText,
      ← chainText, chainText_cons, chainText_cons, hw]
    simp only [List.append_assoc, List.cons_append]
  · intro he
    rw [List.append_cancel_left_eq, List.cons.injEq] at he
    have hr := congrArg (fun t => t.recordedAt.length) he.1
    simp at hr

/-- Chains with one text are equal, unless one of them absorbs transitions of the other. -/
theorem eq_or_absorbs_of_chainText_eq : ∀ {ts us : List Transition} {n : Nat}
    {prior : Option State}, Chain n prior ts → Chain n prior us → chainText ts = chainText us →
    ts = us ∨ Absorbs ts us ∨ Absorbs us ts
  | [], [], _, _, _, _, _ => Or.inl rfl
  | [], u :: us, _, _, _, _, h => absurd h.symm (chainText_ne_nil u us)
  | t :: ts, [], _, _, _, _, h => absurd h (chainText_ne_nil t ts)
  | t :: ts, u :: us, n, prior, ht, hu, h => by
    cases ht with
    | cons htn _ hts =>
      generalize hfrom : t.fromState = from' at hu
      cases hu with
      | cons hun _ hus =>
        -- number and origin are fixed by the position, so the texts go on alike behind them
        have hseq : t.sequence = u.sequence := UInt64.toNat_inj.mp (htn.trans hun.symm)
        rw [chainText_cons, chainText_cons, hseq, hfrom, List.append_cancel_left_eq,
          List.cons.injEq, List.append_cancel_left_eq, List.cons.injEq] at h
        obtain ⟨hname, htail⟩ := append_separator_inj (State.zero_not_mem_name _)
          (State.zero_not_mem_name _) h.2.2
        have hto : t.toState = u.toState :=
          Option.some.inj (State.text_injective (by exact hname))
        rcases newline_split htail with ⟨hrec, hrest⟩ | ⟨w, hrec, hw⟩ | ⟨w, hrec, hw⟩
        · have htu : t = u := by
            cases t
            cases u
            simp_all
          subst htu
          rcases eq_or_absorbs_of_chainText_eq hts hus hrest with rfl | ha | ha
          · exact Or.inl rfl
          · exact Or.inr (Or.inl (ha.cons t))
          · exact Or.inr (Or.inr (ha.cons t))
        · have hu : u = { t with recordedAt := t.recordedAt ++ 0x0a :: w } := by
            cases t
            cases u
            simp_all
          exact Or.inr (Or.inl ⟨[], t, ts, us, w, rfl, by rw [hu]; rfl, hw⟩)
        · have ht : t = { u with recordedAt := u.recordedAt ++ 0x0a :: w } := by
            cases t
            cases u
            simp_all
          exact Or.inr (Or.inr ⟨[], u, us, ts, w, rfl, by rw [ht]; rfl, hw⟩)

/-! ## Two accepted journals -/

/-- Equal digests mean equal transitions exactly when neither journal absorbs the other's. -/
theorem journal_digest_binds_transitions {spec : TransactionSpec} {text text' : Bytes}
    {m m' : TransactionJournalMetadata} {ts ts' : List Transition}
    (h : decodeTransactionMetadata spec text = .ok m)
    (h' : decodeTransactionMetadata spec text' = .ok m')
    (hts : journalTransitions spec text = .ok ts) (hts' : journalTransitions spec text' = .ok ts')
    (hinj : Set.InjOn sha256 {chainText ts, chainText ts'}) :
    (m.journalDigest = m'.journalDigest → ts = ts') ↔ ¬Absorbs ts ts' ∧ ¬Absorbs ts' ts := by
  obtain ⟨document, us, hparse, hus, -, -, hdigest⟩ := decodeTransactionMetadata_eq_ok h
  obtain ⟨document', us', hparse', hus', -, -, hdigest'⟩ := decodeTransactionMetadata_eq_ok h'
  rw [journalTransitions, hparse] at hts
  rw [journalTransitions, hparse'] at hts'
  cases hus.symm.trans hts
  cases hus'.symm.trans hts'
  have hsame : m.journalDigest = m'.journalDigest ↔ chainText ts = chainText ts' := by
    rw [hdigest, hdigest']
    exact hinj.eq_iff (Set.mem_insert _ _) (Set.mem_insert_of_mem _ rfl)
  rw [hsame]
  constructor
  · intro hbinds
    refine ⟨fun ha => ha.chainText_eq.2 (hbinds ha.chainText_eq.1), fun ha => ?_⟩
    exact ha.chainText_eq.2 (hbinds ha.chainText_eq.1.symm).symm
  · rintro ⟨hn, hn'⟩ heq
    rcases eq_or_absorbs_of_chainText_eq (chain_of_documentTransitions hus)
      (chain_of_documentTransitions hus') heq with he | ha | ha
    · exact he
    · exact absurd ha hn
    · exact absurd ha hn'

/-! ## A journal that absorbs a transition -/

/-- A transaction with one-letter names. -/
def sampleTransaction : TransactionSpec :=
  { transactionId := ascii "t", planId := ascii "p", planDigest := List.replicate 64 0x30,
    operation := ascii "install_local", stagingParent := ⟨ascii "/s"⟩, targetRoot := ⟨ascii "/t"⟩,
    stateRoot := ⟨ascii "/d"⟩, auditRoot := ⟨ascii "/a"⟩ }

/-- A session of the sample that has done nothing but record these transitions. -/
def sampleSession (transitions : List Transition) : Session :=
  { spec := sampleTransaction, createdAt := ascii "0", currentState := lastState none transitions,
    transitions }

/-- Both readers accept a text as a journal of the sample, and these are its transitions. -/
def accepts (text : Bytes) (transitions : List Transition) : Bool :=
  (decodeTransactionMetadata sampleTransaction text).isOk &&
    (journalTransitions sampleTransaction text).toOption == some transitions

theorem decoded_of_accepts {text : Bytes} {transitions : List Transition}
    (h : accepts text transitions = true) : ∃ m,
      decodeTransactionMetadata sampleTransaction text = .ok m ∧
      journalTransitions sampleTransaction text = .ok transitions ∧
      m.journalDigest = sha256 (chainText transitions) := by
  rw [accepts, Bool.and_eq_true, beq_iff_eq, toOption_eq_some] at h
  obtain ⟨hok, hts⟩ := h
  obtain ⟨m, hm⟩ := exists_of_isOk hok
  obtain ⟨document, us, hparse, hus, -, -, hdigest⟩ := decodeTransactionMetadata_eq_ok hm
  have hread := hts
  rw [journalTransitions, hparse] at hread
  cases hus.symm.trans hread
  exact ⟨m, hm, hts, hdigest⟩

/-- Two transitions. -/
def spelledOut : List Transition :=
  [⟨0, none, .created, ascii "x"⟩, ⟨1, some .created, .validated, ascii "y"⟩]

/-- One transition whose time goes on with the text of the second one. -/
def absorbed : List Transition :=
  [⟨0, none, .created, ascii "x\n1\x00created\x00validated\x00y"⟩]

set_option maxRecDepth 100000 in
theorem spelledOut_accepted :
    accepts (sampleSession spelledOut).journalLayout.text spelledOut = true := by
  decide +kernel

set_option maxRecDepth 100000 in
theorem absorbed_accepted :
    accepts (sampleSession absorbed).journalLayout.text absorbed = true := by
  decide +kernel

/-- Two accepted journals of the sample with one digest and different transitions. -/
theorem absorbed_journal_shares_digest : ∃ m m',
    decodeTransactionMetadata sampleTransaction (sampleSession spelledOut).journalLayout.text =
      .ok m ∧
    decodeTransactionMetadata sampleTransaction (sampleSession absorbed).journalLayout.text =
      .ok m' ∧
    journalTransitions sampleTransaction (sampleSession spelledOut).journalLayout.text =
      .ok spelledOut ∧
    journalTransitions sampleTransaction (sampleSession absorbed).journalLayout.text =
      .ok absorbed ∧
    m.journalDigest = m'.journalDigest ∧ spelledOut ≠ absorbed := by
  obtain ⟨m, hm, hts, hdigest⟩ := decoded_of_accepts spelledOut_accepted
  obtain ⟨m', hm', hts', hdigest'⟩ := decoded_of_accepts absorbed_accepted
  have htext : chainText spelledOut = chainText absorbed := by decide
  refine ⟨m, m', hm, hm', hts, hts', ?_, by decide⟩
  rw [hdigest, hdigest', htext]

/-- The journal of the sample after its first transition. -/
def firstOnly : List Transition :=
  [⟨0, none, .created, ascii "x"⟩]

set_option maxRecDepth 100000 in
theorem firstOnly_accepted :
    accepts (sampleSession firstOnly).journalLayout.text firstOnly = true := by
  decide +kernel

set_option maxRecDepth 100000 in
theorem firstOnly_digest_differs :
    sha256 (chainText firstOnly) ≠ sha256 (chainText spelledOut) := by
  decide +kernel

/-- The two journals of the sample that its first two transitions write. -/
theorem sampleSession_bound : ∃ m m',
    decodeTransactionMetadata sampleTransaction (sampleSession firstOnly).journalLayout.text =
      .ok m ∧
    decodeTransactionMetadata sampleTransaction (sampleSession spelledOut).journalLayout.text =
      .ok m' ∧
    ((m.journalDigest = m'.journalDigest → firstOnly = spelledOut) ↔
      ¬Absorbs firstOnly spelledOut ∧ ¬Absorbs spelledOut firstOnly) := by
  obtain ⟨m, hm, hts, -⟩ := decoded_of_accepts firstOnly_accepted
  obtain ⟨m', hm', hts', -⟩ := decoded_of_accepts spelledOut_accepted
  have hinj : Set.InjOn sha256 {chainText firstOnly, chainText spelledOut} := by
    rintro _ (rfl | rfl) _ (rfl | rfl) he
    · rfl
    · exact absurd he firstOnly_digest_differs
    · exact absurd he.symm firstOnly_digest_differs
    · rfl
  exact ⟨_, _, hm, hm', journal_digest_binds_transitions hm hm' hts hts' hinj⟩

end Usk.Transaction
