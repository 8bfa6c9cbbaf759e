import UniversalSetup.Json.Schema

/-!
# Documents written member by member

A writer that streams a document out has its members in the order in which the code writes them,
and escapes strings in its own way. A `Layout` is such a document before it becomes text: `text` is
what the writer emits.
-/

namespace Usk.Json

/-- A document in the order of its writer. An embedded value is written canonically. -/
inductive Layout where
  | null
  | boolean (b : Bool)
  | unsigned (n : UInt64)
  | string (s : Bytes)
  | embedded (v : Value)
  | array (items : List Layout)
  | object (members : List (Bytes × Layout))

/-! ## Text -/

/-- One byte of `json_escape`: backspace and form feed have no escape of their own. -/
def jsonEscapeByte (ch : UInt8) : Bytes :=
  if ch = 0x5c then [0x5c, 0x5c]
  else if ch = 0x22 then [0x5c, 0x22]
  else if ch = 0x0a then [0x5c, 0x6e]
  else if ch = 0x0d then [0x5c, 0x72]
  else if ch = 0x09 then [0x5c, 0x74]
  else if ch < 0x20 then
    [0x5c, 0x75, 0x30, 0x30, hexByte (ch.toNat / 16), hexByte (ch.toNat % 16)]
  else [ch]

/-- `json_escape`. -/
def jsonEscape (value : Bytes) : Bytes :=
  value.flatMap jsonEscapeByte

/-- `quote`. -/
def quote (value : Bytes) : Bytes :=
  0x22 :: (jsonEscape value ++ [0x22])

mutual

/-- What the writer emits. -/
def Layout.text : Layout → Bytes
  | .null => ascii "null"
  | .boolean b => if b then ascii "true" else ascii "false"
  | .unsigned n => decimal n.toNat
  | .string s => quote s
  | .embedded v => canonical v
  | .array items => 0x5b :: (itemsText items ++ [0x5d])
  | .object members => 0x7b :: (membersText members ++ [0x7d])

/-- Elements, with a comma before each but the first. -/
def itemsText : List Layout → Bytes
  | [] => []
  | item :: rest => item.text ++ (if rest.isEmpty then [] else 0x2c :: itemsText rest)

def membersText : List (Bytes × Layout) → Bytes
  | [] => []
  | (key, item) :: rest =>
    quote key ++ 0x3a :: (item.text ++ (if rest.isEmpty then [] else 0x2c :: membersText rest))

end

/-! ## Records -/

/-- An object with the keys of the source. -/
def Layout.record (members : List (String × Layout)) : Layout :=
  .object (members.map fun m => (ascii m.1, m.2))

/-- A member that is only written under a condition. -/
def optionally (written : Bool) (key : String) (item : Layout) : List (String × Layout) :=
  if written then [(key, item)] else []

end Usk.Json
