import DocTree.Options
/-!
Levels of log messages. A level is a number; the usual ones have names, in capitals or not.
-/

namespace DocTree.Log

def critical : Int := 50
def error : Int := 40
def warning : Int := 30
def info : Int := 20
def debug : Int := 10

def levels : Mapping Int := [
  ("CRITICAL", critical), ("FATAL", critical), ("ERROR", error), ("WARN", warning),
  ("WARNING", warning), ("INFO", info), ("DEBUG", debug), ("NOTSET", 0)]

/-- Capitals for comparing with the names. Beside the ASCII letters two others have an ASCII letter
as their capital: the i without a dot and the long s. -/
def capital (c : CodePoint) : CodePoint :=
  if c.val = 0x131 then CodePoint.ofChar 'I'
  else if c.val = 0x17F then CodePoint.ofChar 'S'
  else c.toUpperAscii

/-- The level with a name; a name that no level has means information. -/
def levelOf (name : Text) : Int := (levels.get? ((name.trim (·.isBlank)).map capital)).getD info

def levelVariable : Text := Settings.variableStart ++ "LOG_LEVEL"

/-- The level meant by a value: whole numbers and truth values stand for themselves, and anything else
for the level of that name. -/
def ofJson : Json → Json
  | .int n => .int n
  | .bool b => .bool b
  | j => .int (levelOf j.asText)

def resolve (env : Environment) : Json → Json
  | .null => ofJson ((env.get? levelVariable).getD (.str "WARNING"))
  | j => ofJson j

def weight : Json → Int
  | .int n => n
  | .bool b => if b then 1 else 0
  | j => levelOf j.asText

end DocTree.Log
