import UniversalSetup.Base.Bytes

/-!
# SHA-256

`usk::base::Sha256`: a chaining state of eight words, a block buffer and a byte counter. The
compression runs in the model, so a digest of a concrete text can be evaluated; no proof looks
inside it. What proofs use is that a digest is 64 hexadecimal digits and that feeding two pieces is
feeding their concatenation.
-/

namespace Usk

/-- A `std::uint32_t` result. Words are kept reduced. -/
def word (n : Nat) : Nat :=
  n % 2 ^ 32

/-- `rotate_right`. -/
def rotateRight (value bits : Nat) : Nat :=
  (value >>> bits) ||| word (value <<< (32 - bits))

/-- `constants`. -/
def shaConstants : List Nat :=
  [0x428a2f98, 0x71374491, 0xb5c0fbcf, 0xe9b5dba5, 0x3956c25b, 0x59f111f1, 0x923f82a4, 0xab1c5ed5,
   0xd807aa98, 0x12835b01, 0x243185be, 0x550c7dc3, 0x72be5d74, 0x80deb1fe, 0x9bdc06a7, 0xc19bf174,
   0xe49b69c1, 0xefbe4786, 0x0fc19dc6, 0x240ca1cc, 0x2de92c6f, 0x4a7484aa, 0x5cb0a9dc, 0x76f988da,
   0x983e5152, 0xa831c66d, 0xb00327c8, 0xbf597fc7, 0xc6e00bf3, 0xd5a79147, 0x06ca6351, 0x14292967,
   0x27b70a85, 0x2e1b2138, 0x4d2c6dfc, 0x53380d13, 0x650a7354, 0x766a0abb, 0x81c2c92e, 0x92722c85,
   0xa2bfe8a1, 0xa81a664b, 0xc24b8b70, 0xc76c51a3, 0xd192e819, 0xd6990624, 0xf40e3585, 0x106aa070,
   0x19a4c116, 0x1e376c08, 0x2748774c, 0x34b0bcb5, 0x391c0cb3, 0x4ed8aa4a, 0x5b9cca4f, 0x682e6ff3,
   0x748f82ee, 0x78a5636f, 0x84c87814, 0x8cc70208, 0x90befffa, 0xa4506ceb, 0xbef9a3f7, 0xc67178f2]

/-- `state_`. -/
structure ShaState where
  a : Nat
  b : Nat
  c : Nat
  d : Nat
  e : Nat
  f : Nat
  g : Nat
  h : Nat

def ShaState.initial : ShaState :=
  ⟨0x6a09e667, 0xbb67ae85, 0x3c6ef372, 0xa54ff53a, 0x510e527f, 0x9b05688c, 0x1f83d9ab, 0x5be0cd19⟩

/-- The sixteen big-endian words of a block. -/
def blockWords : Nat → Bytes → List Nat
  | 0, _ => []
  | n + 1, block =>
    (block.take 4).foldl (fun acc b => acc * 256 + b.toNat) 0 :: blockWords n (block.drop 4)

/-- The message schedule, latest word first, so `words[index - k]` is the entry `k - 1`. -/
def extendWords : Nat → List Nat → List Nat
  | 0, words => words
  | n + 1, words =>
    let w15 := words.getD 14 0
    let w2 := words.getD 1 0
    let s0 := rotateRight w15 7 ^^^ rotateRight w15 18 ^^^ (w15 >>> 3)
    let s1 := rotateRight w2 17 ^^^ rotateRight w2 19 ^^^ (w2 >>> 10)
    extendWords n (word (words.getD 15 0 + s0 + words.getD 6 0 + s1) :: words)

/-- One round of the compression loop; `~e` is the complement in 32 bits. -/
def ShaState.round (s : ShaState) (kw : Nat × Nat) : ShaState :=
  let t1 := s.h + (rotateRight s.e 6 ^^^ rotateRight s.e 11 ^^^ rotateRight s.e 25) +
    ((s.e &&& s.f) ^^^ ((2 ^ 32 - 1 - s.e) &&& s.g)) + kw.1 + kw.2
  let t2 := (rotateRight s.a 2 ^^^ rotateRight s.a 13 ^^^ rotateRight s.a 22) +
    ((s.a &&& s.b) ^^^ (s.a &&& s.c) ^^^ (s.b &&& s.c))
  { a := word (t1 + t2), b := s.a, c := s.b, d := s.c,
    e := word (s.d + t1), f := s.e, g := s.f, h := s.g }

/-- `transform`. -/
def ShaState.transform (s : ShaState) (block : Bytes) : ShaState :=
  let words := (extendWords 48 (blockWords 16 block).reverse).reverse
  let r := (shaConstants.zip words).foldl ShaState.round s
  ⟨word (s.a + r.a), word (s.b + r.b), word (s.c + r.c), word (s.d + r.d),
    word (s.e + r.e), word (s.f + r.f), word (s.g + r.g), word (s.h + r.h)⟩

/-- The hash object: `block` holds the first `block_size_` bytes of `block_`. -/
structure Sha256 where
  state : ShaState := ShaState.initial
  block : Bytes := []
  totalBytes : Nat := 0

namespace Sha256

/-- One byte copied into the block buffer, compressing a full block. -/
def push (s : Sha256) (b : UInt8) : Sha256 :=
  let block := s.block ++ [b]
  if block.length = 64 then { s with state := s.state.transform block, block := [] }
  else { s with block := block }

/-- `update`. -/
def update (s : Sha256) (data : Bytes) : Sha256 :=
  data.foldl push { s with totalBytes := s.totalBytes + data.length }

/-- The loop of zero bytes in `finish`, which ends within one block. -/
def padZeros : Nat → Sha256 → Sha256
  | 0, s => s
  | fuel + 1, s => if s.block.length = 56 then s else padZeros fuel (s.update [0])

/-- Eight hexadecimal digits of a word. -/
def hexWord (w : Nat) : Bytes :=
  (List.range 8).map fun i => hexByte (w / 16 ^ (7 - i) % 16)

/-- `finish`. -/
def finish (s : Sha256) : Bytes :=
  let bitLength := s.totalBytes * 8 % 2 ^ 64
  let padded := padZeros 64 (s.update [0x80])
  let length := (List.range 8).map fun i => UInt8.ofNat (bitLength / 256 ^ (7 - i) % 256)
  let r := (padded.update length).state
  [r.a, r.b, r.c, r.d, r.e, r.f, r.g, r.h].flatMap hexWord

theorem push_totalBytes (s : Sha256) (b : UInt8) : (s.push b).totalBytes = s.totalBytes := by
  unfold push
  dsimp only
  split <;> rfl

/-- The byte counter does not take part in the compression. -/
theorem push_counter (s : Sha256) (b : UInt8) (n : Nat) :
    push { s with totalBytes := n } b = { s.push b with totalBytes := n } := by
  unfold push
  dsimp only
  split <;> rfl

theorem foldl_push_counter (data : Bytes) (n : Nat) : ∀ s : Sha256,
    data.foldl push { s with totalBytes := n } = { data.foldl push s with totalBytes := n } := by
  induction data with
  | nil => exact fun s => rfl
  | cons b rest ih =>
    intro s
    rw [List.foldl_cons, List.foldl_cons, push_counter, ih]

theorem foldl_push_totalBytes (data : Bytes) : ∀ s : Sha256,
    (data.foldl push s).totalBytes = s.totalBytes := by
  induction data with
  | nil => exact fun s => rfl
  | cons b rest ih =>
    intro s
    rw [List.foldl_cons, ih, push_totalBytes]

/-- Feeding two pieces is feeding their concatenation. -/
theorem update_append (s : Sha256) (x y : Bytes) : s.update (x ++ y) = (s.update x).update y := by
  unfold update
  rw [List.foldl_append, List.length_append, ← Nat.add_assoc, foldl_push_totalBytes]
  congr 1
  rw [foldl_push_counter x (s.totalBytes + x.length), foldl_push_counter]

theorem hexWord_length (w : Nat) : (hexWord w).length = 8 := by
  simp [hexWord]

theorem isHex_of_mem_hexWord {w : Nat} {c : UInt8} (h : c ∈ hexWord w) : isHex c = true := by
  obtain ⟨i, -, rfl⟩ := List.mem_map.mp h
  exact isHex_hexByte (Nat.mod_lt _ (by decide))

end Sha256

/-- The digest of a text, as hexadecimal. No proof computes it. -/
@[irreducible]
def sha256 (text : Bytes) : Bytes :=
  (Sha256.update {} text).finish

theorem validSha256_sha256 (text : Bytes) : validSha256 (sha256 text) = true := by
  unfold sha256 Sha256.finish
  dsimp only
  rw [validSha256, Bool.and_eq_true, beq_iff_eq, List.all_eq_true]
  refine ⟨?_, ?_⟩
  · simp only [List.flatMap_cons, List.flatMap_nil, List.length_append, Sha256.hexWord_length,
      List.length_nil]
  · intro c hc
    obtain ⟨w, -, hw⟩ := List.mem_flatMap.mp hc
    exact Sha256.isHex_of_mem_hexWord hw

example : sha256 (ascii "abc") =
    ascii "ba7816bf8f01cfea414140de5dae2223b00361a396177a9cb410ff61f20015ad" := by decide +kernel

end Usk
