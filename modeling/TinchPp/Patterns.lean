import TinchPp.ErlAny

/-!
# The patterns of the library

Everything a pattern can be made of, nested to any depth: the constructors of
`erlang_value_types.h`, `erl_string.h`, `erl_tuple.h`, `erl_list.h` and `erl_any.h`. A list of values
may have elements of any type, since a list of pointers to objects has; a list that is a variable
has the type of its elements, and these are the types that have a `value_type`.

Floating point numbers arrive as text. `decode_float` asserts that `sscanf` finds a number in it.
What `sscanf` takes for a number is up to the C library and its locale, and so it is a parameter.
-/

namespace TinchPp

open Wire

variable {σ : Type}

/-! ### Floats -/

/-- What the C library makes of a `double`: its text in the format `%.20e`, and the number that
`sscanf` reads with `%lf`, if it reads one. -/
structure FloatFormat where
  print : Float → Str
  scan : Str → Option Float

namespace Float_

variable (format : FloatFormat) (ndebug : Bool)

/-- `std::numeric_limits<double>::epsilon()` -/
def epsilon : Float := 2.220446049250313e-16

def equalDoubles (x y : Float) : Bool := decide ((x - y).abs < epsilon)

/-- The text is filled up with zeroes. -/
def encodeFloat (val : Float) : Str :=
  (format.print val ++ List.replicate Constants.floatDigits 0).take Constants.floatDigits

/-- The characters in front of the first zero. -/
def cStr (s : Str) : Str := s.takeWhile (· ≠ 0)

/-- That there is a number is asserted, unless assertions are compiled out. -/
def decodeFloat (encoded : Str) : Option Float :=
  match format.scan (cStr encoded) with
  | some decoded => some decoded
  | none => if ndebug then some 0 else none

def serialize (val : Float) : MsgSeq := TypeTag.floatExt :: encodeFloat format val

/-- `match_float_value` -/
def matchValue (val : Float) : Matcher σ := fun f v =>
  match binaryToTerm floatExt f [] with
  | (false, f, _) => some (false, f, v)
  | (true, f, res) =>
    match decodeFloat format ndebug res with
    | none => none
    | some decoded => some (equalDoubles val decoded, f, v)

/-- `assign_matched_float`, to whatever it is assigned. -/
def read (f : MsgSeq) : Option (Bool × MsgSeq × Float) :=
  match binaryToTerm floatExt f [] with
  | (false, f, _) => some (false, f, 0)
  | (true, f, res) =>
    match decodeFloat format ndebug res with
    | none => none
    | some decoded => some (true, f, decoded)

def assignMatched (toAssign : Pointer σ Float) : Matcher σ := fun f v =>
  match read format ndebug f with
  | none => none
  | some (success, f, decoded) => some (success, f, toAssign.set decoded v)

def ofValue (val : Float) : Object σ := ⟨serialize format val, matchValue format ndebug val⟩

/-- The value of a pattern with a variable is not initialized. Zero stands for it, if someone
serializes the pattern. -/
def ofPointer (toAssign : Pointer σ Float) : Object σ :=
  ⟨serialize format 0, assignMatched format ndebug toAssign⟩

def ofAny (any : Any σ) : Object σ := ⟨serialize format 0, Float_.matchAny any⟩

/-- The loop of `assign_match` for a list of floats. -/
def assignElements : ℕ → MsgSeq → List Float → Option (Bool × MsgSeq × List Float)
  | 0, f, val => some (true, f, val)
  | n + 1, f, val =>
    match read format ndebug f with
    | none => none
    | some (true, f, a) => assignElements n f (val ++ [a])
    | some (false, f, a) => some (false, f, val ++ [a])

/-- `assign_match` for a list of floats. -/
def assignList (f : MsgSeq) (val : List Float) : Option (Bool × MsgSeq × List Float) :=
  match binaryToTerm listHeadExt f 0 with
  | (false, f, _) => some (false, f, val)
  | (true, f, parsedLength) =>
    match assignElements format ndebug parsedLength f val with
    | none => none
    | some (false, f, val) => some (false, f, val)
    | some (true, f, val) =>
      some ((binaryToTerm nilExt f ()).1, (binaryToTerm nilExt f ()).2.1, val)

/-- `list<float_>`, made from a variable. -/
def listOfPointer (contained : Pointer σ (List Float)) : Object σ :=
  ⟨ErlList.serialize ([] : List (Object σ)), fun f v =>
    match assignList format ndebug f (contained.get v) with
    | none => none
    | some (success, f, val) => some (success, f, contained.set val v)⟩

end Float_

/-! ### Patterns -/

/-- What a pattern is made from: a value, a variable, or an `any`. -/
inductive From (σ α : Type)
  | value (val : α)
  | pointer (toAssign : Pointer σ α)
  | any (any : Any σ)

/-- A pattern, as it is put together. -/
inductive Pattern (σ : Type)
  | int (arg : From σ Int32)
  | atom (arg : From σ Str)
  | pid (arg : From σ EPid)
  | ref (arg : From σ NewReferenceType)
  | binary (arg : From σ BinaryValueType)
  | float (arg : From σ Float)
  | string (arg : From σ Str)
  | tuple (contained : List (Pattern σ))
  | list (contained : List (Pattern σ))
  | intList (contained : List (From σ Int32))
  | intListOf (contained : Pointer σ (List Int32))
  | atomListOf (contained : Pointer σ (List Str))
  | pidListOf (contained : Pointer σ (List EPid))
  | refListOf (contained : Pointer σ (List NewReferenceType))
  | floatListOf (contained : Pointer σ (List Float))
  | any (o : AnyObject σ)

/-- The constructor of a class for its argument. -/
def From.toObject {α : Type} (ofValue : α → Object σ) (ofPointer : Pointer σ α → Object σ)
    (ofAny : Any σ → Object σ) : From σ α → Object σ
  | value val => ofValue val
  | pointer toAssign => ofPointer toAssign
  | any o => ofAny o

def From.toIntObject : From σ Int32 → IntObject σ
  | value val => .ofValue val
  | pointer toAssign => .ofPointer toAssign
  | any o => .ofAny o

namespace Pattern

variable (format : FloatFormat) (ndebug : Bool)

mutual

/-- The object that the constructors make. -/
def toObject : Pattern σ → Object σ
  | int arg => arg.toIntObject.toObject
  | atom arg => arg.toObject Atom.ofValue Atom.ofPointer Atom.ofAny
  | pid arg => arg.toObject Pid.ofValue Pid.ofPointer Pid.ofAny
  | ref arg => arg.toObject Ref.ofValue Ref.ofPointer Ref.ofAny
  | binary arg => arg.toObject Binary.ofValue Binary.ofPointer Binary.ofAny
  | float arg =>
    arg.toObject (Float_.ofValue format ndebug) (Float_.ofPointer format ndebug)
      (Float_.ofAny format)
  | string arg => arg.toObject EString.ofValue EString.ofPointer EString.ofAny
  | tuple contained => makeETuple (toObjects contained)
  | list contained => ErlList.ofValue (toObjects contained)
  | intList contained => IntList.ofValue (contained.map From.toIntObject)
  | intListOf contained => IntList.ofPointer contained
  | atomListOf contained => ErlList.ofPointer atomExt [] contained
  | pidListOf contained => ErlList.ofPointer pidExt .invalid contained
  | refListOf contained => ErlList.ofPointer newReferenceExtP .invalid contained
  | floatListOf contained => Float_.listOfPointer format ndebug contained
  | any o => o.toObject ndebug

def toObjects : List (Pattern σ) → List (Object σ)
  | [] => []
  | p :: contained => p.toObject :: toObjects contained

end

theorem toObjects_eq_map (ps : List (Pattern σ)) :
    toObjects format ndebug ps = ps.map (toObject format ndebug) := by
  induction ps with
  | nil => rfl
  | cons p ps ih => rw [toObjects, ih, List.map_cons]

theorem length_toObjects (ps : List (Pattern σ)) :
    (toObjects format ndebug ps).length = ps.length := by
  rw [toObjects_eq_map, List.length_map]

end Pattern

end TinchPp
