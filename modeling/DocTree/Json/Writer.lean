import DocTree.Json.Basic
import DocTree.Number.Literal
/-!
JSON text: compact, on one line, with non-ASCII characters escaped on demand.
-/

namespace DocTree.Json

def unitEscape (n : Nat) : Text := "\\u" ++ Text.hex 4 n

/-- A character above the last unit takes two. -/
def unicodeEscape (c : CodePoint) : Text :=
  if c.val < 0x10000 then unitEscape c.val
  else
    let offset := c.val - 0x10000
    unitEscape (0xD800 + offset / 0x400) ++ unitEscape (0xDC00 + offset % 0x400)

def escapeChar (ascii : Bool) (c : CodePoint) : Text :=
  if c.val = 0x22 then "\\\""
  else if c.val = 0x5C then "\\\\"
  else if c.val = 0x0A then "\\n"
  else if c.val = 0x0D then "\\r"
  else if c.val = 0x09 then "\\t"
  else if c.val = 0x0C then "\\f"
  else if c.val = 0x08 then "\\b"
  else if c.val < 0x20 ∨ (ascii ∧ 0x7E < c.val) then unicodeEscape c
  else [c]

def writeString (ascii : Bool) (t : Text) : Text :=
  "\"" ++ t.flatMap (escapeChar ascii) ++ "\""

mutual

def write (ascii : Bool) : Json → Text
  | null => "null"
  | bool true => "true"
  | bool false => "false"
  | int n => Text.ofInt n
  | float x => NumberLayout.json.text x
  | str t => writeString ascii t
  | arr items => "[" ++ writeItems ascii items ++ "]"
  | obj members => "\x7b" ++ writeMembers ascii members ++ "\x7d"

def writeItems (ascii : Bool) : List Json → Text
  | [] => []
  | [j] => j.write ascii
  | j :: rest => j.write ascii ++ "," ++ writeItems ascii rest

def writeMembers (ascii : Bool) : List (Text × Json) → Text
  | [] => []
  | [(k, j)] => writeString ascii k ++ ":" ++ j.write ascii
  | (k, j) :: rest => writeString ascii k ++ ":" ++ j.write ascii ++ "," ++ writeMembers ascii rest

/-- Whether there is a text for every number. -/
def isPrintable : Json → Bool
  | int n => Number.isShort n
  | arr items => arePrintable items
  | obj members => havePrintable members
  | _ => true

def arePrintable : List Json → Bool
  | [] => true
  | j :: rest => j.isPrintable && arePrintable rest

def havePrintable : List (Text × Json) → Bool
  | [] => true
  | (_, j) :: rest => j.isPrintable && havePrintable rest

end

end DocTree.Json
