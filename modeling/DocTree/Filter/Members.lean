import DocTree.Filter.Value
/-!
The members of values. A value has the members that were put into it, those that show its data, and
the routines of its type. A routine can be called, but it is no action; what it does as one is the
parameter `inert` throughout.
-/

namespace DocTree.Value

variable {β : Type}

abbrev Members (β : Type) := Mapping (Value β)

def words (s : String) : List Text := (Text.ofString s).splitOn (CodePoint.ofChar ' ')

def commonOperations : List Text := words <|
  "__delattr__ __eq__ __ge__ __getattribute__ __gt__ __hash__ __init__ __le__ __lt__ " ++
  "__ne__ __repr__ __setattr__ __str__"

def commonMethods : List Text := words <|
  "__dir__ __format__ __getstate__ __init_subclass__ __new__ __reduce__ __reduce_ex__ " ++
  "__sizeof__ __subclasshook__"

def wholeOperations : String :=
  "__abs__ __add__ __and__ __bool__ __divmod__ __float__ __floordiv__ __index__ __int__ " ++
  "__invert__ __lshift__ __mod__ __mul__ __neg__ __or__ __pos__ __pow__ __radd__ __rand__ " ++
  "__rdivmod__ __rfloordiv__ __rlshift__ __rmod__ __rmul__ __ror__ __rpow__ __rrshift__ " ++
  "__rshift__ __rsub__ __rtruediv__ __rxor__ __sub__ __truediv__ __xor__"

def wholeMethods : String :=
  "__ceil__ __floor__ __getnewargs__ __round__ __trunc__ as_integer_ratio bit_count " ++
  "bit_length conjugate from_bytes to_bytes"

def operations : List (String × String) := [
  ("bool", wholeOperations),
  ("int", wholeOperations),
  ("float",
    "__abs__ __add__ __bool__ __divmod__ __float__ __floordiv__ __int__ __mod__ __mul__ " ++
    "__neg__ __pos__ __pow__ __radd__ __rdivmod__ __rfloordiv__ __rmod__ __rmul__ " ++
    "__rpow__ __rsub__ __rtruediv__ __sub__ __truediv__"),
  ("str", "__add__ __contains__ __getitem__ __iter__ __len__ __mod__ __mul__ __rmod__ __rmul__"),
  ("tuple", "__add__ __contains__ __getitem__ __iter__ __len__ __mul__ __rmul__"),
  ("list",
    "__add__ __contains__ __delitem__ __iadd__ __imul__ __iter__ __len__ __mul__ __rmul__ " ++
    "__setitem__"),
  ("dict", "__delitem__ __ior__ __iter__ __len__ __or__ __ror__ __setitem__"),
  ("NoneType", "__bool__"),
  ("type", "__call__ __or__ __ror__"),
  ("function", "__call__ __get__"),
  ("builtin_function_or_method", "__call__"),
  ("method-wrapper", "__call__"),
  ("method", "__call__ __get__"),
  ("wrapper_descriptor", "__call__ __get__"),
  ("method_descriptor", "__call__ __get__")]

def methods : List (String × String) := [
  ("bool", wholeMethods),
  ("int", wholeMethods),
  ("float",
    "__ceil__ __floor__ __getformat__ __getnewargs__ __round__ __trunc__ as_integer_ratio " ++
    "conjugate fromhex hex is_integer"),
  ("str",
    "__getnewargs__ capitalize casefold center count encode endswith expandtabs find " ++
    "format format_map index isalnum isalpha isascii isdecimal isdigit isidentifier " ++
    "islower isnumeric isprintable isspace istitle isupper join ljust lower lstrip " ++
    "maketrans partition removeprefix removesuffix replace rfind rindex rjust rpartition " ++
    "rsplit rstrip split splitlines startswith strip swapcase title translate upper zfill"),
  ("tuple", "__class_getitem__ __getnewargs__ count index"),
  ("list",
    "__class_getitem__ __getitem__ __reversed__ append clear copy count extend index " ++
    "insert pop remove reverse sort"),
  ("dict",
    "__class_getitem__ __contains__ __getitem__ __reversed__ clear copy fromkeys get " ++
    "items keys pop popitem setdefault update values"),
  ("type", "mro __instancecheck__ __prepare__ __subclasscheck__ __subclasses__")]

def namesFor (table : List (String × String)) (typeName : Text) : List Text :=
  match table.find? fun entry => Text.ofString entry.1 == typeName with
  | some entry => words entry.2
  | .none => []

def ownerOf (typeName : Text) : Text := "'" ++ typeName ++ "' object"

def routine (inert : β) (shown typeName home name : Text) (members : Members β) : Value β :=
  let own : Members β :=
    [("__name__", .text name), ("__qualname__", .text (home ++ "." ++ name)), ("__doc__", .text [])]
  .object shown typeName (ownerOf typeName) (some inert) (own ++ members)

def operationType : Text := "method-wrapper"

def methodType : Text := "builtin_function_or_method"

def operation (inert : β) (owner : Value β) (name : Text) : Value β :=
  routine inert ("<method-wrapper " ++ name.quoted ++ " of " ++ owner.typeName ++ " object>")
    operationType owner.typeName name [("__self__", owner)]

def method (inert : β) (owner : Value β) (name : Text) : Value β :=
  routine inert ("<built-in method " ++ name ++ " of " ++ owner.typeName ++ " object>")
    methodType owner.typeName name [("__self__", owner), ("__module__", .none)]

def bound (inert : β) (owner : Value β) (home name : Text) : Value β :=
  routine inert ("<bound method " ++ home ++ "." ++ name ++ " of " ++ owner.display ++ ">")
    "method" home name [("__self__", owner)]

def typeOperation (inert : β) (home name : Text) : Value β :=
  routine inert ("<slot wrapper " ++ name.quoted ++ " of " ++ home.quoted ++ " objects>")
    "wrapper_descriptor" home name []

def typeMethod (inert : β) (home name : Text) : Value β :=
  routine inert ("<method " ++ name.quoted ++ " of " ++ home.quoted ++ " objects>")
    "method_descriptor" home name []

def usualHome : Text := "builtins"

def ofType (inert : β) (home path : Text) (members : Members β) : Value β :=
  let name := ((path.splitOn (CodePoint.ofChar '.')).getLast?).getD path
  let start : Text := if home = usualHome then [] else home ++ "."
  let own : Members β :=
    [("__name__", .text name), ("__qualname__", .text path), ("__module__", .text home)]
  .object ("<class '" ++ start ++ path ++ "'>") "type" ("type object " ++ name.quoted) (some inert)
    (own ++ members)

def rootType (inert : β) : Value β :=
  ofType inert usualHome "object" [("__base__", .none), ("__bases__", .tuple []),
    ("__doc__", .text []), ("__dict__", .map [])]

def plainType (inert : β) (home path : Text) (members : Members β) : Value β :=
  let root := rootType inert
  let own := ofType inert home path []
  let bases : Members β :=
    [("__base__", root), ("__bases__", .tuple [root]), ("__mro__", .tuple [own, root])]
  ofType inert home path (bases ++ members)

def usualType (inert : β) (name : Text) : Value β :=
  plainType inert usualHome name
    (((namesFor operations name).map fun n => (n, typeOperation inert name n)) ++
      (namesFor methods name).map fun n => (n, typeMethod inert name n))

def filterHome : Text := "panwalk.filter"

def filterType (inert : β) : Value β := plainType inert filterHome "Filter" []

def typeOf (inert : β) : Value β → Value β
  | filter _ => filterType inert
  | v => usualType inert v.typeName

/-- The members that show a whole number as a fraction and as a complex number. -/
def parts (n : Int) : Members β :=
  [("real", .int n), ("imag", .int 0), ("numerator", .int n), ("denominator", .int 1)]

def filterMembers (inert : β) (f : Filter β) : Members β :=
  let actions := tuple (f.handlers.map handler)
  let ofValue (name : Text) := (name, bound inert (filter f) "Filter" name)
  let ofType (name : Text) := (name, bound inert (filterType inert) "Filter" name)
  [("actions", actions), ("_actions", actions), ("__module__", .text filterHome),
    ("__slots__", tuple [.text "_actions"]), ofValue "apply", ofValue "__init__", ofValue "__len__",
    ofValue "__repr__", ofType "from_actions", ofType "from_args", ofType "from_named_actions"]

def ownMembers (inert : β) : Value β → Members β
  | object _ _ _ _ members => members
  | int n => parts n
  | bool b => parts (if b then 1 else 0)
  | float x => [("real", float x), ("imag", float (.ofBool false))]
  | list _ | map _ => [("__hash__", none)]
  | filter f => filterMembers inert f
  | _ => []

/-- The routine of the type of a value with a name. The common ones of types are shown as those of the
root type. -/
def routine? (inert : β) (name : Text) (v : Value β) : Option (Value β) :=
  let isType := v.typeName = "type"
  if (namesFor operations v.typeName).contains name then some (operation inert v name)
  else if (namesFor methods v.typeName).contains name then some (method inert v name)
  else if commonOperations.contains name then
    some (if isType then typeOperation inert "object" name else operation inert v name)
  else if commonMethods.contains name then
    some (if isType then typeMethod inert "object" name else method inert v name)
  else Option.none

def member? (inert : β) (name : Text) (v : Value β) : Option (Value β) :=
  match Mapping.get? name (v.ownMembers inert) with
  | some inner => some inner
  | Option.none =>
    if name = "__class__" then some (typeOf inert v)
    else if name = "__doc__" then some (if v.typeName = "NoneType" then none else .text [])
    else v.routine? inert name

def ownerText : Value β → Text
  | object _ _ owner _ _ => owner
  | v => ownerOf v.typeName

end DocTree.Value
