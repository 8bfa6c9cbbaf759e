import UniversalSetup.Base.Blocks
import UniversalSetup.Base.Sha256Compress

/-!
# The hash object

`usk::base::Sha256` with its copying loop, its byte counter of 64 bits and the flag that forbids a
second `finish`. Pieces of any length, empty ones included, give the digest of the standard for what
they make together; the padding that `finish` feeds is the standard's. The digest function `sha256`,
which the other modules use, feeds byte after byte; it is simulated by the object.
-/

namespace Usk

open Buffered (Fed)
open Fips180 (ofBits toBits)

variable {m : Sha256} {data : Bytes}

/-- `usk::base::Sha256`: `state_` behind `block_`, of which the first `block_size_` bytes are held.
-/
structure Sha256Object where
  blocks : Buffered UInt8 ShaState 64
  totalBytes : Nat
  finished : Bool

namespace Sha256Object

/-- A new object. -/
def empty : Sha256Object :=
  ⟨⟨ShaState.initial, [], by decide⟩, 0, false⟩

/-- `update`. -/
def update (s : Sha256Object) (data : Bytes) : Except String Sha256Object :=
  if s.finished then .error "invalid SHA-256 update"
  else .ok { s with
    blocks := s.blocks.fill ShaState.transform data
    totalBytes := (s.totalBytes + data.length) % 2 ^ 64 }

/-- The loop of zero bytes in `finish`, which ends within one block. -/
def padZeros : Nat → Sha256Object → Except String Sha256Object
  | 0, s => .ok s
  | fuel + 1, s =>
    if s.blocks.held.length = 56 then .ok s
    else do
      let s ← s.update [0]
      padZeros fuel s

/-- `bit_length`, as eight bytes. -/
def lengthBytes (bitLength : Nat) : Bytes :=
  (List.range 8).map fun i => UInt8.ofNat (bitLength / 256 ^ (7 - i) % 256)

/-- The hexadecimal output of `finish`. -/
def hexState (r : ShaState) : Bytes :=
  [r.a, r.b, r.c, r.d, r.e, r.f, r.g, r.h].flatMap Sha256.hexWord

/-- `finish`. -/
def finish (s : Sha256Object) : Except String (Bytes × Sha256Object) := do
  if s.finished then throw "SHA-256 was already finalized"
  let bitLength := s.totalBytes * 8 % 2 ^ 64
  let marked ← s.update [0x80]
  let padded ← padZeros 64 marked
  let last ← padded.update (lengthBytes bitLength)
  pure (hexState last.blocks.state, { last with finished := true })

/-! ## The digest function as a simulation -/

/-- The object holds what the bytewise digest holds. -/
structure Simulates (s : Sha256Object) (m : Sha256) : Prop where
  state : s.blocks.state = m.state
  block : s.blocks.held = m.block
  total : s.totalBytes = m.totalBytes % 2 ^ 64
  running : s.finished = false

theorem fill_singleton {b : Buffered UInt8 ShaState 64} (c : UInt8) (hstate : b.state = m.state)
    (hblock : b.held = m.block) :
    (b.fill ShaState.transform [c]).state = (m.push c).state ∧
      (b.fill ShaState.transform [c]).held = (m.push c).block := by
  have hput : b.fill ShaState.transform [c] = b.put ShaState.transform [c] b.room :=
    ((Buffered.fed_self b).fill [c]).unique (@Fed.put _ _ _ _ _ _ b (Buffered.fed_self b) [c]
      b.room)
  rw [hput, Buffered.put, Sha256.push, ← hstate, ← hblock]
  simp only [List.length_append, List.length_singleton]
  split
  · exact ⟨rfl, rfl⟩
  · exact ⟨rfl, rfl⟩

theorem fill_eq_foldl : ∀ (data : Bytes) {b : Buffered UInt8 ShaState 64} {m : Sha256},
    b.state = m.state → b.held = m.block →
    (b.fill ShaState.transform data).state = (data.foldl Sha256.push m).state ∧
      (b.fill ShaState.transform data).held = (data.foldl Sha256.push m).block
  | [], b, m, hstate, hblock => by
    rw [Buffered.fill_nil]
    exact ⟨hstate, hblock⟩
  | c :: rest, b, m, hstate, hblock => by
    obtain ⟨hstate, hblock⟩ := fill_singleton c hstate hblock
    have hcons : b.fill ShaState.transform (c :: rest) =
        (b.fill ShaState.transform [c]).fill ShaState.transform rest :=
      Buffered.fill_append b [c] rest
    rw [hcons]
    exact fill_eq_foldl rest hstate hblock

theorem Simulates.update {s : Sha256Object} (h : s.Simulates m) (data : Bytes) :
    ∃ s', s.update data = .ok s' ∧ s'.Simulates (m.update data) := by
  have hrunning : ¬s.finished = true := by rw [h.running]; exact Bool.false_ne_true
  refine ⟨_, if_neg hrunning, ?_⟩
  obtain ⟨hstate, hblock⟩ := @fill_eq_foldl data s.blocks
    { m with totalBytes := m.totalBytes + data.length } h.state h.block
  refine ⟨hstate, hblock, ?_, h.running⟩
  show (s.totalBytes + data.length) % 2 ^ 64 = _
  rw [Sha256.update, Sha256.foldl_push_totalBytes, h.total, Nat.mod_add_mod]

theorem Simulates.padZeros : ∀ (fuel : Nat) {s : Sha256Object} {m : Sha256}, s.Simulates m →
    ∃ s', s.padZeros fuel = .ok s' ∧ s'.Simulates (m.padZeros fuel)
  | 0, s, m, h => ⟨s, rfl, h⟩
  | fuel + 1, s, m, h => by
    unfold Sha256Object.padZeros Sha256.padZeros
    rw [h.block]
    split
    · exact ⟨s, rfl, h⟩
    · obtain ⟨next, hnext, hsim⟩ := h.update [0]
      obtain ⟨s', hs', hsim⟩ := Simulates.padZeros fuel hsim
      exact ⟨s', by rw [hnext]; exact hs', hsim⟩

theorem finish_eq (m : Sha256) : m.finish = hexState ((Sha256.padZeros 64 (m.update [0x80])).update
    (lengthBytes (m.totalBytes * 8 % 2 ^ 64))).state := by
  simp only [Sha256.finish, hexState, lengthBytes]

/-- The object returns what the bytewise digest returns. -/
theorem Simulates.finish {s : Sha256Object} {m : Sha256} (h : s.Simulates m) :
    ∃ s', s.finish = .ok (m.finish, s') := by
  obtain ⟨marked, hmarked, hsim⟩ := h.update [0x80]
  obtain ⟨padded, hpadded, hsim⟩ := hsim.padZeros 64
  obtain ⟨last, hlast, hsim⟩ := hsim.update (lengthBytes (s.totalBytes * 8 % 2 ^ 64))
  have hlength : s.totalBytes * 8 % 2 ^ 64 = m.totalBytes * 8 % 2 ^ 64 := by
    rw [h.total, Nat.mod_mul_mod]
  refine ⟨{ last with finished := true }, ?_⟩
  unfold Sha256Object.finish
  rw [h.running]
  show (do
    let marked ← s.update [0x80]
    let padded ← Sha256Object.padZeros 64 marked
    let last ← padded.update (lengthBytes (s.totalBytes * 8 % 2 ^ 64))
    pure (hexState last.blocks.state, ({ last with finished := true } : Sha256Object))) = _
  rw [hmarked]
  show (Sha256Object.padZeros 64 marked >>= _) = _
  rw [hpadded]
  show (padded.update _ >>= _) = _
  rw [hlast]
  show Except.ok (hexState last.blocks.state, _) = _
  rw [hsim.state, hlength, finish_eq]

theorem simulates_empty : empty.Simulates {} :=
  ⟨rfl, rfl, rfl, rfl⟩

/-- Pieces give the digest of their concatenation. -/
theorem Simulates.pieces : ∀ (pieces : List Bytes) {s : Sha256Object} {m : Sha256}, s.Simulates m →
    ∃ s', pieces.foldlM Sha256Object.update s = .ok s' ∧ s'.Simulates (m.update pieces.flatten)
  | [], s, m, h => ⟨s, rfl, h⟩
  | piece :: rest, s, m, h => by
    obtain ⟨next, hnext, hsim⟩ := h.update piece
    obtain ⟨s', hs', hsim⟩ := Simulates.pieces rest hsim
    refine ⟨s', ?_, ?_⟩
    · rw [List.foldlM_cons, hnext]
      exact hs'
    · rw [List.flatten_cons, Sha256.update_append]
      exact hsim

/-! ## Padding -/

/-- How many zero bytes follow the marker behind a message of `n` bytes. -/
def zeroBytes (n : Nat) : Nat :=
  (119 - n % 64) % 64

/-- What is fed in all: the message and what `finish` appends. -/
def paddedBytes (data : Bytes) : Bytes :=
  data ++ 0x80 :: (List.replicate (zeroBytes data.length) 0 ++ lengthBytes (8 * data.length))

theorem bytesBits_replicate (n : Nat) :
    bytesBits (List.replicate n 0) = List.replicate (8 * n) false := by
  induction n with
  | zero => rfl
  | succ n ih =>
    rw [List.replicate_succ, ← List.singleton_append, bytesBits_append, ih, Nat.mul_succ,
      Nat.add_comm, List.replicate_add]
    rfl

theorem toBits_bytes (n : Nat) : ∀ k, toBits (8 * k) n =
    bytesBits ((List.range k).map fun i => UInt8.ofNat (n / 256 ^ (k - 1 - i) % 256))
  | 0 => rfl
  | k + 1 => by
    have hbyte : toBits 8 (n / 2 ^ (8 * k)) = bytesBits [UInt8.ofNat (n / 256 ^ k % 256)] := by
      rw [bytesBits, List.flatMap_singleton, UInt8.toNat_ofNat', Nat.mod_mod, pow_mul]
      exact (Fips180.toBits_mod 8 _).symm
    have hindex (i : Nat) : k + 1 - 1 - (i + 1) = k - 1 - i := by omega
    rw [Nat.mul_succ, Nat.add_comm, Fips180.toBits_add, hbyte, toBits_bytes n k, ← bytesBits_append,
      List.range_succ_eq_map, List.map_cons, List.map_map]
    simp only [Function.comp_def, Nat.succ_eq_add_one, hindex]
    rfl

/-- What `finish` feeds is the padding of the standard. -/
theorem bytesBits_paddedBytes : bytesBits (paddedBytes data) = Fips180.pad (bytesBits data) := by
  have hzeros : Fips180.zeros (8 * data.length) = 7 + 8 * zeroBytes data.length := by
    unfold Fips180.zeros zeroBytes
    omega
  have hlength : bytesBits (lengthBytes (8 * data.length)) = toBits 64 (8 * data.length) :=
    (toBits_bytes (8 * data.length) 8).symm
  rw [Fips180.pad, paddedBytes, bytesBits_append, ← List.singleton_append, bytesBits_append,
    bytesBits_append, bytesBits_replicate, hlength, length_bytesBits, hzeros, List.replicate_add,
    List.append_assoc]
  rfl

/-- The bytewise digest has been fed the data, from the initial state on. -/
def Absorbed (m : Sha256) (data : Bytes) : Prop :=
  ∃ b : Buffered UInt8 ShaState 64, b.Fed ShaState.transform ShaState.initial data ∧
    b.state = m.state ∧ b.held = m.block

theorem Absorbed.update (h : Absorbed m data) (more : Bytes) :
    Absorbed (m.update more) (data ++ more) := by
  obtain ⟨b, hfed, hstate, hblock⟩ := h
  exact ⟨b.fill ShaState.transform more, hfed.fill more, fill_eq_foldl more hstate hblock⟩

theorem absorbed_empty : Absorbed {} [] :=
  ⟨⟨ShaState.initial, [], by decide⟩, Buffered.fed_empty (by decide), rfl, rfl⟩

/-- The loop of zero bytes ends when 56 bytes of a block are held. -/
theorem Absorbed.padZeros : ∀ (fuel : Nat) {m : Sha256} {data : Bytes}, Absorbed m data →
    (120 - data.length % 64) % 64 ≤ fuel →
    Absorbed (m.padZeros fuel) (data ++ List.replicate ((120 - data.length % 64) % 64) 0)
  | 0, m, data, h, hfuel => by
    rw [Nat.le_zero.mp hfuel, List.replicate_zero, List.append_nil]
    exact h
  | fuel + 1, m, data, h, hfuel => by
    have hheld : m.block.length = data.length % 64 := by
      obtain ⟨b, hfed, -, hblock⟩ := h
      rw [← hblock, hfed.length_held]
    unfold Sha256.padZeros
    split
    · next h56 =>
      rw [← hheld, h56]
      exact (List.append_nil data).symm ▸ h
    · next h56 =>
      -- one zero byte fewer is missing behind it
      have hstep : (120 - data.length % 64) % 64 = (120 - (data ++ [0]).length % 64) % 64 + 1 := by
        rw [List.length_append, List.length_singleton]
        omega
      have hnext := Absorbed.padZeros fuel (h.update [0]) (by omega)
      rw [hstep, Nat.add_comm, List.replicate_add]
      rwa [List.append_assoc] at hnext

theorem foldl_transform {data : Bytes} : ∀ n ≤ data.length / 64,
    ((List.range n).map fun i => (data.drop (64 * i)).take 64).foldl ShaState.transform
      ShaState.initial = .ofHash (Fips180.hash (bytesBits data) n)
  | 0, _ => initial_eq
  | n + 1, h => by
    have hblock : Fips180.block (bytesBits data) n = bytesBits ((data.drop (64 * n)).take 64) := by
      rw [Fips180.block, show 512 * n = 8 * (64 * n) by omega, bytesBits_drop,
        show 512 = 8 * 64 from rfl, bytesBits_take]
    rw [List.range_succ, List.map_append, List.foldl_append, foldl_transform n (by omega),
      List.map_singleton, List.foldl_cons, List.foldl_nil, transform_ofHash, Fips180.hash, hblock]

/-! ## Hexadecimal output -/

/-- Bits as hexadecimal digits, four at a time. -/
def hexText : Fips180.Bits → Bytes
  | a :: b :: c :: d :: rest => hexByte (ofBits [a, b, c, d]) :: hexText rest
  | _ => []

theorem hexText_nibble (n : Nat) (rest : Fips180.Bits) :
    hexText (toBits 4 n ++ rest) = hexByte (n % 16) :: hexText rest := by
  have hvalue := Fips180.ofBits_toBits 4 n
  have hlength := Fips180.length_toBits 4 n
  match toBits 4 n, hlength, hvalue with
  | [a, b, c, d], _, hvalue =>
    show hexByte (ofBits [a, b, c, d]) :: _ = _
    rw [hvalue]
    rfl

theorem hexText_toBits (n : Nat) (rest : Fips180.Bits) : ∀ k, hexText (toBits (4 * k) n ++ rest) =
    ((List.range k).map fun i => hexByte (n / 16 ^ (k - 1 - i) % 16)) ++ hexText rest
  | 0 => rfl
  | k + 1 => by
    have hindex (i : Nat) : k + 1 - 1 - (i + 1) = k - 1 - i := by omega
    rw [Nat.mul_succ, Nat.add_comm, Fips180.toBits_add, List.append_assoc, hexText_nibble,
      hexText_toBits n rest k, List.range_succ_eq_map, List.map_cons, List.map_map]
    simp only [Function.comp_def, Nat.succ_eq_add_one, hindex, pow_mul]
    rfl

theorem hexState_ofHash (s : Fips180.Hash) :
    hexState (.ofHash s) = hexText (s.words.flatMap fun w => toBits 32 w.toNat) := by
  have hword (w : Fips180.Word) (rest : Fips180.Bits) :
      hexText (toBits 32 w.toNat ++ rest) = Sha256.hexWord w.toNat ++ hexText rest :=
    hexText_toBits w.toNat rest 8
  simp only [hexState, ShaState.ofHash, Fips180.Hash.words, List.flatMap_cons, List.flatMap_nil,
    hword]
  rfl

/-! ## The digest of the standard -/

theorem finish_absorbed (h : Absorbed m data) (htotal : m.totalBytes = data.length)
    (hlength : data.length < 2 ^ 61) : m.finish = hexText (Fips180.digest (bytesBits data)) := by
  have hbits : m.totalBytes * 8 % 2 ^ 64 = 8 * data.length := by
    rw [htotal, Nat.mul_comm]
    exact Nat.mod_eq_of_lt (by omega)
  have hzeros : (120 - (data ++ [0x80]).length % 64) % 64 = zeroBytes data.length := by
    rw [List.length_append, List.length_singleton, zeroBytes]
    omega
  have hpadded := (h.update [0x80]).padZeros 64 (by omega)
  rw [hzeros] at hpadded
  have hall := hpadded.update (lengthBytes (8 * data.length))
  rw [List.append_assoc, List.append_assoc] at hall
  obtain ⟨b, hfed, hstate, -⟩ := hall
  have hfold := hfed.state_eq
  change b.state = (Buffered.blocksOf 64 (paddedBytes data)).foldl _ _ at hfold
  have hcount : (Fips180.pad (bytesBits data)).length / 512 = (paddedBytes data).length / 64 := by
    rw [← bytesBits_paddedBytes, length_bytesBits]
    omega
  rw [finish_eq, hbits, ← hstate, hfold, Buffered.blocksOf, foldl_transform _ (Nat.le_refl _),
    hexState_ofHash, bytesBits_paddedBytes, Fips180.digest, hcount]

theorem sha256_standard (h : data.length < 2 ^ 61) :
    sha256 data = hexText (Fips180.digest (bytesBits data)) := by
  have habsorbed := absorbed_empty.update data
  rw [List.nil_append] at habsorbed
  rw [sha256]
  refine finish_absorbed habsorbed ?_ h
  rw [Sha256.update, Sha256.foldl_push_totalBytes]
  exact Nat.zero_add _

/-- Fed in any pieces, empty ones included, the object returns the digest of the standard for all of
them together. -/
theorem pieces_digest_standard (pieces : List Bytes) (h : pieces.flatten.length < 2 ^ 61) :
    ∃ fed last, pieces.foldlM Sha256Object.update empty = .ok fed ∧
      fed.finish = .ok (hexText (Fips180.digest (bytesBits pieces.flatten)), last) ∧
      sha256 pieces.flatten = hexText (Fips180.digest (bytesBits pieces.flatten)) := by
  obtain ⟨fed, hfed, hsim⟩ := simulates_empty.pieces pieces
  obtain ⟨last, hlast⟩ := hsim.finish
  have hdigest := sha256_standard h
  refine ⟨fed, last, hfed, ?_, hdigest⟩
  rw [hlast, ← hdigest, sha256]

/-- The three letters of the test vector in two pieces, with an empty one in between. -/
theorem pieces_digest_abc : ∃ fed last,
    [ascii "a", [], ascii "bc"].foldlM Sha256Object.update empty = .ok fed ∧
    fed.finish = .ok (ascii
      "ba7816bf8f01cfea414140de5dae2223b00361a396177a9cb410ff61f20015ad", last) := by
  obtain ⟨fed, last, hfed, hfinish, hdigest⟩ :=
    pieces_digest_standard [ascii "a", [], ascii "bc"] (by decide)
  have habc : sha256 [ascii "a", [], ascii "bc"].flatten =
      ascii "ba7816bf8f01cfea414140de5dae2223b00361a396177a9cb410ff61f20015ad" := by decide +kernel
  refine ⟨fed, last, hfed, ?_⟩
  rw [hfinish, ← hdigest, habc]

end Sha256Object

end Usk
