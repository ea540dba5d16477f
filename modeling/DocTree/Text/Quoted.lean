import DocTree.Text.Printable
/-!
Quoted text, as messages and outlines show it: in single quotes unless only double quotes can stand
around it without an escape, with every unprintable character escaped. A quoted text stays on one
line.
-/

namespace DocTree.Text

/-- The numeric escape of a character, with as many digits as its size asks for. -/
def numericEscape (c : CodePoint) : Text :=
  if c.val < 0x100 then "\\x" ++ hex 2 c.val
  else if c.val < 0x10000 then "\\u" ++ hex 4 c.val
  else "\\U" ++ hex 8 c.val

def escapeFor (quote c : CodePoint) : Text :=
  if c = quote ∨ c = CodePoint.ofChar '\\' then [CodePoint.ofChar '\\', c]
  else if c.val = 0x0A then "\\n"
  else if c.val = 0x0D then "\\r"
  else if c.val = 0x09 then "\\t"
  else if c.isPrintable then [c]
  else numericEscape c

/-- Single quotes, unless the text has some and has no double quote. -/
def quoteMark (t : Text) : CodePoint :=
  if t.contains (CodePoint.ofChar '\'') && !t.contains (CodePoint.ofChar '"')
  then CodePoint.ofChar '"' else CodePoint.ofChar '\''

def quoted (t : Text) : Text :=
  let quote := quoteMark t
  quote :: (t.flatMap (escapeFor quote) ++ [quote])

def escapeByteFor (quote : CodePoint) (b : UInt8) : Text :=
  let c := CodePoint.ofNat b.toNat
  if b < 0x80 then escapeFor quote c else numericEscape c

def quotedBytes (bs : List UInt8) : Text :=
  let quote := quoteMark (bs.map fun b => CodePoint.ofNat b.toNat)
  "b" ++ quote :: (bs.flatMap (escapeByteFor quote) ++ [quote])

end DocTree.Text
