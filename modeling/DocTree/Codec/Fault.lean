import DocTree.Foreign
import DocTree.Number.Literal
/-!
What can be wrong with a JSON value that should be a document. A defect is a broken rule of layout.
Inside an element it is reported as a defect of that element, so that a reader of the message knows
where to look; a refusal is such a report, final and unchanged by whatever encloses it.
-/

namespace DocTree.Codec

/-- A value does not have the form that its place asks for. -/
inductive Defect
  | notSequence (typeName : Text)
  | tooFew (expected got : Nat)
  | tooMany (expected : Nat)
  | notObject (value : Json)
  | missing (key : Text)
  | badNumber (fault : Number.Fault)
  | notWhole (typeName : Text)
  | notReal (typeName : Text)
  /-- Not-a-number where a whole number was expected. -/
  | undefinedWhole
  /-- A tag that is a list or an object, which no table of kinds can look up. -/
  | compoundTag (typeName : Text)

def Defect.message : Defect → Text
  | notSequence typeName => "cannot unpack non-iterable " ++ typeName ++ " object"
  | tooFew expected got =>
    "not enough values to unpack (expected " ++ Text.ofNat expected ++ ", got " ++ Text.ofNat got ++ ")"
  | tooMany expected => "too many values to unpack (expected " ++ Text.ofNat expected ++ ")"
  | notObject (.str _) => "string indices must be integers, not 'str'"
  | notObject (.arr _) => "list indices must be integers or slices, not str"
  | notObject j => "'" ++ j.typeName ++ "' object is not subscriptable"
  | missing key => key.quoted
  | badNumber fault => fault.message
  | notWhole typeName =>
    "int() argument must be a string, a bytes-like object or a real number, not '" ++ typeName ++ "'"
  | notReal typeName =>
    "float() argument must be a string or a real number, not '" ++ typeName ++ "'"
  | undefinedWhole => "cannot convert float NaN to integer"
  | compoundTag typeName => "unhashable type: '" ++ typeName ++ "'"

inductive Overflow
  | infinite
  | tooLarge
  deriving DecidableEq, Repr

def Overflow.message : Overflow → Text
  | infinite => "cannot convert float infinity to integer"
  | tooLarge => "int too large to convert to float"

inductive Refusal
  | notElement (value : Json)
  | unknownKind (tag : Json)
  | badContents (tag : Text) (defect : Defect)
  | expectedList (what typeName : Text)
  | expectedMapping (typeName : Text)
  | expectedBoolean (typeName : Text)
  | expectedString (tag typeName : Text)
  | badVersion (value : Json) (defect : Defect)
  /-- The version is empty or has a negative part. -/
  | invalidVersion (version : Text)
  | unsupportedVersion (version supported : Text)
  | missingBlocks
  /-- The layout of documents from before version 1.18. -/
  | oldLayout

def Refusal.message : Refusal → Text
  | notElement j => "Expected a pandoc element object, got " ++ j.display.take 80
  | unknownKind tag => "Unknown node type: " ++ tag.asText
  | badContents tag defect => "Malformed " ++ tag ++ " element: " ++ defect.message
  | expectedList what typeName => "Expected a list for " ++ what ++ ", got " ++ typeName
  | expectedMapping typeName => "Expected an object for metadata, got " ++ typeName
  | expectedBoolean typeName => "Expected a boolean for MetaBool, got " ++ typeName
  | expectedString tag typeName => "Expected a string for " ++ tag ++ ", got " ++ typeName
  | badVersion j _ => "Invalid pandoc-api-version: " ++ j.display
  | invalidVersion version => "Invalid pandoc-api-version: " ++ version
  | unsupportedVersion version supported =>
    "Pandoc API version " ++ version ++ " does not match supported versions " ++ supported
  | missingBlocks => "Document is missing the 'blocks' field"
  | oldLayout => "Pre-1.18 pandoc JSON layout ([\x7b'unMeta': ...\x7d, [...]]) is not supported"

/-- How decoding ends without a tree. A bare defect belongs to whatever encloses the value. -/
inductive Fault
  | defect (d : Defect)
  | refused (r : Refusal)
  | overflow (o : Overflow)
  | library (fault : Foreign)
  /-- A number with more digits than are printed. -/
  | unprintable
  | recursion

def Fault.message : Fault → Text
  | defect d => d.message
  | refused r => r.message
  | overflow o => o.message
  | library fault => fault.message
  | unprintable => Number.unprintableMessage
  | recursion => Stack.message

end DocTree.Codec
