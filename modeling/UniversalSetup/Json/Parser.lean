import UniversalSetup.Json.Value

/-!
# The JSON reader

`usk::json::Parser` is a recursive descent parser over a byte string. The model keeps the unread
part of the text instead of an index into it.

The check a decoded string must pass is a field of the reader. `parse` always uses `valid_utf8`;
leaving it open lets the same reader show that encodings of arbitrary bytes are unambiguous.

## Termination

`value` recurses on the depth budget, which every nesting level of the source decreases as well.
The member loops run on a counter that starts at the number of unread bytes. Every round reads at
least one byte, so the counter never decides the result.
-/

namespace Usk.Json

structure ParseLimits where
  maxBytes : Nat := 4 * 1024 * 1024
  maxDepth : Nat := 64
  maxValues : Nat := 100000
  maxStringBytes : Nat := 1024 * 1024

/-- Where a parser stands: the unread text and the number of values counted so far. -/
structure Input where
  rest : Bytes
  values : Nat

structure Reader where
  limits : ParseLimits
  validString : Bytes → Bool

/-! ## Tokens -/

def isSpace (c : UInt8) : Bool :=
  c == 0x20 || c == 0x09 || c == 0x0d || c == 0x0a

/-- `skip_space`. -/
def skipSpace : Bytes → Bytes
  | [] => []
  | c :: rest => if isSpace c then skipSpace rest else c :: rest

/-- `consume`. -/
def consume (expected : UInt8) : Bytes → Option Bytes
  | c :: rest => if c = expected then some rest else none
  | [] => none

/-- `require`. -/
def require (expected : UInt8) (rest : Bytes) : Result Bytes :=
  match consume expected (skipSpace rest) with
  | some rest => .ok rest
  | none => .error "JSON punctuation is invalid"

/-- `literal`. -/
def literal (expected : String) (rest : Bytes) : Result Bytes :=
  if (ascii expected).isPrefixOf rest then .ok (rest.drop (ascii expected).length)
  else .error "JSON literal is invalid"

def maxUInt64 : Nat := 2 ^ 64 - 1

/-- The digit loop of `number`. -/
def numberLoop (result : Nat) : Bytes → Result (Nat × Bytes)
  | [] => .ok (result, [])
  | c :: rest =>
    if isDigit c then
      let digit := c.toNat - 0x30
      if (maxUInt64 - digit) / 10 < result then .error "JSON integer overflows uint64"
      else numberLoop (result * 10 + digit) rest
    else .ok (result, c :: rest)

/-- The first two bytes of a number with a leading zero. -/
def leadingZero : Bytes → Bool
  | c :: d :: _ => c == 0x30 && isDigit d
  | _ => false

/-- `.`, `e` or `E` right after the digits. -/
def floatingMark : Bytes → Bool
  | c :: _ => c == 0x2e || c == 0x65 || c == 0x45
  | [] => false

/-- `number`. -/
def number (rest : Bytes) : Result (Nat × Bytes) :=
  if leadingZero rest then .error "JSON integer has a leading zero"
  else do
    let (result, rest) ← numberLoop 0 rest
    if floatingMark rest then .error "JSON floating point numbers are forbidden"
    else .ok (result, rest)

/-- `hex_digit`. -/
def hexDigit (ch : UInt8) : Result Nat :=
  if 0x30 ≤ ch && ch ≤ 0x39 then .ok (ch.toNat - 0x30)
  else if 0x61 ≤ ch && ch ≤ 0x66 then .ok (ch.toNat - 0x61 + 10)
  else if 0x41 ≤ ch && ch ≤ 0x46 then .ok (ch.toNat - 0x41 + 10)
  else .error "JSON Unicode escape is invalid"

/-- The four digits of `unicode_escape`. -/
def unicodeEscape (a b c d : UInt8) : Result Nat := do
  let a ← hexDigit a
  let b ← hexDigit b
  let c ← hexDigit c
  let d ← hexDigit d
  return ((a * 16 + b) * 16 + c) * 16 + d

/-- The one-letter escapes of `string`. -/
def simpleEscape (escaped : UInt8) : Option UInt8 :=
  if escaped = 0x22 then some 0x22        -- quotation mark
  else if escaped = 0x5c then some 0x5c   -- backslash
  else if escaped = 0x2f then some 0x2f   -- slash
  else if escaped = 0x62 then some 0x08   -- b
  else if escaped = 0x66 then some 0x0c   -- f
  else if escaped = 0x6e then some 0x0a   -- n
  else if escaped = 0x72 then some 0x0d   -- r
  else if escaped = 0x74 then some 0x09   -- t
  else none

/-- The checks of `string` at the closing quotation mark. -/
def Reader.finishString (r : Reader) (result : Bytes) : Result Bytes :=
  if r.limits.maxStringBytes < result.length then .error "JSON string exceeds budget"
  else if !r.validString result then .error "JSON string is not valid UTF-8"
  else .ok result

/-- `string` after its opening quotation mark; `result` is what has been decoded so far. -/
def Reader.stringLoop (r : Reader) (result : Bytes) : Bytes → Result (Bytes × Bytes)
  | [] => .error "JSON string is unterminated"
  | ch :: rest =>
    if ch = 0x22 then do
      let result ← r.finishString result
      return (result, rest)
    else if ch < 0x20 then .error "JSON string contains an unescaped control byte"
    else if ch ≠ 0x5c then r.stringLoop (result ++ [ch]) rest
    else
      match rest with
      | [] => .error "JSON escape is truncated"
      | escaped :: rest =>
        if escaped = 0x75 then
          match rest with
          | h0 :: h1 :: h2 :: h3 :: rest =>
            match unicodeEscape h0 h1 h2 h3 with
            | .error e => .error e
            | .ok codepoint =>
              if 0xd800 ≤ codepoint && codepoint ≤ 0xdbff then
                match rest with
                | s0 :: s1 :: rest =>
                  if s0 ≠ 0x5c || s1 ≠ 0x75 then
                    .error "JSON high surrogate lacks a low surrogate"
                  else
                    match rest with
                    | l0 :: l1 :: l2 :: l3 :: rest =>
                      match unicodeEscape l0 l1 l2 l3 with
                      | .error e => .error e
                      | .ok low =>
                        if low < 0xdc00 || 0xdfff < low then
                          .error "JSON low surrogate is invalid"
                        else
                          r.stringLoop (appendUtf8 result
                            (0x10000 + (codepoint - 0xd800) * 1024 + (low - 0xdc00))) rest
                    | _ => .error "JSON Unicode escape is truncated"
                | _ => .error "JSON high surrogate lacks a low surrogate"
              else if 0xdc00 ≤ codepoint && codepoint ≤ 0xdfff then
                .error "JSON contains an unpaired low surrogate"
              else r.stringLoop (appendUtf8 result codepoint) rest
          | _ => .error "JSON Unicode escape is truncated"
        else
          match simpleEscape escaped with
          | some c => r.stringLoop (result ++ [c]) rest
          | none => .error "JSON string escape is invalid"

/-! ## Containers -/

/-- The loop of `array`, entered before a value. -/
def arrayLoop (value : Input → Result (Value × Input)) : Nat → Input → List Value →
    Result (Value × Input)
  | 0, _, _ => .error "JSON punctuation is invalid"
  | fuel + 1, s, result => do
    let (item, s) ← value s
    match consume 0x5d (skipSpace s.rest) with
    | some rest => return (.array (result ++ [item]), { s with rest })
    | none =>
      let rest ← require 0x2c s.rest
      arrayLoop value fuel { s with rest } (result ++ [item])

/-- `array`, after its opening bracket. -/
def array (value : Input → Result (Value × Input)) (s : Input) : Result (Value × Input) :=
  match consume 0x5d (skipSpace s.rest) with
  | some rest => .ok (.array [], { s with rest })
  | none => arrayLoop value (s.rest.length + 1) s []

/-- The loop of `object`, entered before a key. -/
def objectLoop (r : Reader) (value : Input → Result (Value × Input)) : Nat → Input → Object →
    Result (Value × Input)
  | 0, _, _ => .error "JSON punctuation is invalid"
  | fuel + 1, s, result =>
    match consume 0x22 (skipSpace s.rest) with
    | none => .error "JSON object key is invalid"
    | some rest => do
      let (key, rest) ← r.stringLoop [] rest
      let rest ← require 0x3a rest
      let (item, s) ← value { s with rest }
      match ByteMap.emplace result key item with
      | none => .error "JSON object contains a duplicate key"
      | some result =>
        match consume 0x7d (skipSpace s.rest) with
        | some rest => return (.object result, { s with rest })
        | none =>
          let rest ← require 0x2c s.rest
          objectLoop r value fuel { s with rest } result

/-- `object`, after its opening brace. -/
def object (r : Reader) (value : Input → Result (Value × Input)) (s : Input) :
    Result (Value × Input) :=
  match consume 0x7d (skipSpace s.rest) with
  | some rest => .ok (.object [], { s with rest })
  | none => objectLoop r value (s.rest.length + 1) s []

/-- `value`. The first argument is what is left of the depth budget, counting this value. -/
def Reader.value (r : Reader) : Nat → Input → Result (Value × Input)
  | 0, _ => .error "JSON exceeds depth budget"
  | budget + 1, s =>
    if r.limits.maxValues < s.values + 1 then .error "JSON exceeds value budget"
    else
      let values := s.values + 1
      match skipSpace s.rest with
      | [] => .error "JSON value is truncated"
      | ch :: rest =>
        if ch = 0x6e then do
          let rest ← literal "null" (ch :: rest)
          return (.null, ⟨rest, values⟩)
        else if ch = 0x74 then do
          let rest ← literal "true" (ch :: rest)
          return (.boolean true, ⟨rest, values⟩)
        else if ch = 0x66 then do
          let rest ← literal "false" (ch :: rest)
          return (.boolean false, ⟨rest, values⟩)
        else if ch = 0x22 then do
          let (s, rest) ← r.stringLoop [] rest
          return (.string s, ⟨rest, values⟩)
        else if ch = 0x5b then array (r.value budget) ⟨rest, values⟩
        else if ch = 0x7b then object r (r.value budget) ⟨rest, values⟩
        else if 0x30 ≤ ch && ch ≤ 0x39 then do
          let (n, rest) ← number (ch :: rest)
          return (.unsigned (UInt64.ofNat n), ⟨rest, values⟩)
        else .error "JSON contains an unsupported value token"

/-- `Parser::run`. -/
def Reader.run (r : Reader) (text : Bytes) : Result Value :=
  if r.limits.maxBytes < text.length then .error "JSON input exceeds byte budget"
  else do
    let (result, s) ← r.value (r.limits.maxDepth + 1) ⟨skipSpace text, 0⟩
    if skipSpace s.rest ≠ [] then .error "JSON has trailing content"
    else return result

/-- `usk::json::parse`. -/
def parse (text : Bytes) (limits : ParseLimits) : Result Value :=
  Reader.run { limits, validString := validUtf8 } text

end Usk.Json
