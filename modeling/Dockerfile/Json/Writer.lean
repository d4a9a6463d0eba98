import Dockerfile.Json.Value

/-!
# Writing JSON

Two layouts: everything on one line, or two blanks of indent for each level.  In strings, control
characters, quotes and backslashes are escaped, and so are the characters that a web page would
take for markup or a script for a line end; a stray byte is written as the replacement character.
-/

namespace Dockerfile

namespace Json

def unitEscape (n : Nat) : Bytes :=
  utf8 "\\u" ++ hexDigits 4 n

def writePiece : Piece → Bytes
  | .stray _ => String.utf8EncodeChar Piece.replacement
  | .scalar c =>
      match c.toNat with
      | 0x22 => utf8 "\\\""
      | 0x5c => utf8 "\\\\"
      | 0x08 => utf8 "\\b"
      | 0x0c => utf8 "\\f"
      | 0x0a => utf8 "\\n"
      | 0x0d => utf8 "\\r"
      | 0x09 => utf8 "\\t"
      | n =>
          if n < 0x20 || n == 0x3c || n == 0x3e || n == 0x26 || n == 0x2028 || n == 0x2029 then
            unitEscape n
          else String.utf8EncodeChar c

def writeString (text : Bytes) : Bytes :=
  Byte.doubleQuote :: text.pieces.flatMap writePiece ++ [Byte.doubleQuote]

inductive Layout where
  | oneLine
  | indented
  deriving DecidableEq

namespace Layout

def lead (layout : Layout) (depth : Nat) : Bytes :=
  match layout with
  | .oneLine => []
  | .indented => Byte.lineFeed :: List.replicate (2 * depth) Byte.space

def separator : Layout → Bytes
  | .oneLine => [Byte.colon]
  | .indented => [Byte.colon, Byte.space]

def enclose (layout : Layout) (depth : Nat) (left right : UInt8) (items : List Bytes) : Bytes :=
  if items.isEmpty then [left, right]
  else
    left :: Bytes.join [0x2c] (items.map (layout.lead (depth + 1) ++ ·)) ++
      layout.lead depth ++ [right]

end Layout

mutual

def write (layout : Layout) (depth : Nat) : Json → Bytes
  | .null => utf8 "null"
  | .boolean true => utf8 "true"
  | .boolean false => utf8 "false"
  | .number literal => literal
  | .string value => writeString value
  | .array items => layout.enclose depth 0x5b 0x5d (writeItems layout (depth + 1) items)
  | .object members => layout.enclose depth 0x7b 0x7d (writeMembers layout (depth + 1) members)

def writeItems (layout : Layout) (depth : Nat) : List Json → List Bytes
  | [] => []
  | item :: rest => write layout depth item :: writeItems layout depth rest

def writeMembers (layout : Layout) (depth : Nat) : List (Bytes × Json) → List Bytes
  | [] => []
  | (name, value) :: rest =>
      (writeString name ++ layout.separator ++ write layout depth value) ::
        writeMembers layout depth rest

end

def compact (value : Json) : Bytes :=
  value.write .oneLine 0

def pretty (value : Json) : Bytes :=
  value.write .indented 0 ++ [Byte.lineFeed]

end Json

end Dockerfile
