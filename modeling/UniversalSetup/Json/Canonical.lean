import UniversalSetup.Json.Value

/-!
# Canonical JSON

`append_canonical` writes a value without white space and with the members of an object in key
order. `append_escaped` writes short escapes where JSON has them and `\u00xx` for the other
control bytes.
-/

namespace Usk.Json

/-- One byte of `append_escaped`. -/
def escapeByte (ch : UInt8) : Bytes :=
  if ch = 0x22 then [0x5c, 0x22]
  else if ch = 0x5c then [0x5c, 0x5c]
  else if ch = 0x08 then [0x5c, 0x62]
  else if ch = 0x0c then [0x5c, 0x66]
  else if ch = 0x0a then [0x5c, 0x6e]
  else if ch = 0x0d then [0x5c, 0x72]
  else if ch = 0x09 then [0x5c, 0x74]
  else if ch < 0x20 then
    [0x5c, 0x75, 0x30, 0x30, hexByte (ch.toNat / 16), hexByte (ch.toNat % 16)]
  else [ch]

/-- `append_escaped`, with its quotation marks. -/
def escaped (value : Bytes) : Bytes :=
  0x22 :: (value.flatMap escapeByte ++ [0x22])

mutual

/-- `append_canonical`. -/
def canonical : Value → Bytes
  | .null => ascii "null"
  | .boolean b => if b then ascii "true" else ascii "false"
  | .unsigned n => decimal n.toNat
  | .string s => escaped s
  | .array items => 0x5b :: (canonicalItems items ++ [0x5d])
  | .object members => 0x7b :: (canonicalMembers members ++ [0x7d])

/-- The elements of an array, separated by commas. -/
def canonicalItems : List Value → Bytes
  | [] => []
  | item :: rest =>
    canonical item ++ (if rest.isEmpty then [] else 0x2c :: canonicalItems rest)

/-- The members of an object, separated by commas. -/
def canonicalMembers : List (Bytes × Value) → Bytes
  | [] => []
  | (key, value) :: rest =>
    escaped key ++ 0x3a :: (canonical value ++
      (if rest.isEmpty then [] else 0x2c :: canonicalMembers rest))

end

end Usk.Json
