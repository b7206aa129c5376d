import TinchPp.StringPatterns
import TinchPp.Readers

/-!
# What a pattern makes of a term

A pattern is matched against bytes. What it means is about terms, though: a tuple pattern takes a
tuple of its length, if each of its elements takes the element in its place, and a pattern with a
variable takes the terms of its type and adds what is in them to the variable. Here the patterns are
run on terms, without any bytes.

Not all of it is as it should be. A nil behind the elements of a list is left over by an `any`, and
nothing but a list pattern goes past one. So an element that leaves nils has to be the last one. A
string that is a value takes other strings than its own, a `list<int_>` of values compares a packed
list the wrong way around, and the empty list is taken by no pattern.

## Main definitions

* `Term.intoInt`, `Term.intoAtom`, … — what reading a term does to a variable of a type
* `TermMatcher.inSequence` — elements, one after the other
* `AnyObject.on`, `Pattern.on` — a pattern on a term
* `Pattern.nilsBehind` — how many nils a pattern leaves
* `Term.TakenByAny` — the terms that an `any` takes
-/

namespace TinchPp

open Wire

variable {σ α : Type}

/-! ### What a term does to a variable -/

namespace Term

/-- The integers, in both forms. -/
def intoInt : Term → Option (Int32 → Int32)
  | smallInteger n => some fun _ => IntObject.ofElement n
  | integer n => some fun _ => n
  | _ => none

def intoAtom : Term → Option (Str → Str)
  | atom name => some (· ++ name)
  | _ => none

/-- The name of the node goes behind what is there. -/
def intoPid : Term → Option (EPid → EPid)
  | pid p => some fun a => { p with nodeName := a.nodeName ++ p.nodeName }
  | _ => none

def intoRef : Term → Option (NewReferenceType → NewReferenceType)
  | ref r => some fun a => ⟨a.nodeName ++ r.nodeName, r.creation, a.id ++ r.id⟩
  | _ => none

/-- A binary keeps the padding that is there. -/
def intoBinary : Term → Option (BinaryValueType → BinaryValueType)
  | binary value => some fun a => { a with value := a.value ++ value }
  | bitBinary b =>
    some fun a => ⟨(UInt8.ofNat b.paddingBits.toUInt32.toNat).toUInt32.toInt32, a.value ++ b.value⟩
  | _ => none

def intoString : Term → Option (Str → Str)
  | string str => some (· ++ str)
  | _ => none

/-- The text of a float. -/
def digits : Term → Option Str
  | float digits => some digits
  | _ => none

/-- Its number, if `sscanf` finds one. -/
def number (format : FloatFormat) (ndebug : Bool) (t : Term) : Option Float :=
  t.digits.bind (Float_.decodeFloat format ndebug)

def tupleElements : Term → Option (List Term)
  | tuple ts => some ts
  | _ => none

/-- The elements of a list that is not empty. The empty list is not written as a list. -/
def listElements : Term → Option (List Term)
  | list (t :: ts) => some (t :: ts)
  | _ => none

/-- All of them read, if each of them can be. -/
def readEach (read : Term → Option α) : List Term → Option (List α)
  | [] => some []
  | t :: ts => (read t).bind fun a => (readEach read ts).map (a :: ·)

/-- The elements of a list go behind the ones that are there, each of them read into a variable of
its own, which holds `init`. -/
def intoList (into : Term → Option (α → α)) (init : α) (t : Term) :
    Option (List α → List α) :=
  t.listElements.bind fun ts =>
    (readEach (fun t => (into t).map fun change => change init) ts).map fun xs => (· ++ xs)

/-- A packed list is a list of integers, too. -/
def intoIntList : Term → Option (List Int32 → List Int32)
  | string str => some (· ++ str.map IntObject.ofElement)
  | t => t.intoList intoInt 0

end Term

/-! ### Running a pattern on a term -/

/-- What a pattern makes of a term: it fails, or it has changed the variables and stops in front of
so many nils of the term. -/
abbrev TermMatcher (σ : Type) := σ → Option (ℕ × σ)

namespace TermMatcher

/-- The pattern does not take the term. -/
def fails : TermMatcher σ := fun _ => none

/-- The pattern takes the term if `b`, and all of it. -/
def takesIf (b : Bool) (bind : σ → σ) : TermMatcher σ := fun v =>
  if b then some (0, bind v) else none

/-- One element after the other. Behind one that leaves a nil, nothing is matched. -/
def inSequence : List (TermMatcher σ) → TermMatcher σ
  | [], v => some (0, v)
  | [d], v => d v
  | d :: ds, v =>
    match d v with
    | some (0, v) => inSequence ds v
    | _ => none

/-- Elements that are as many as the pattern has. -/
def inOrder (length : ℕ) (ts : List Term) (ds : List (TermMatcher σ)) : TermMatcher σ :=
  if length = ts.length then inSequence ds else fails

end TermMatcher

open TermMatcher

/-- What is in the term is read into the variable. -/
def Pointer.on (toAssign : Pointer σ α) (into : Option (α → α)) : TermMatcher σ := fun v =>
  into.map fun change => (0, toAssign.set (change (toAssign.get v)) v)

/-- The patterns of a class that reads its terms: a value is compared with what is read into a
fresh variable. -/
def From.on [DecidableEq α] (init : α) (into : Option (α → α)) (enc : MsgSeq) :
    From σ α → TermMatcher σ
  | .value val => takesIf (decide (into.map (fun change => change init) = some val)) fun v => v
  | .pointer toAssign => toAssign.on into
  | .any o => takesIf into.isSome (o.saveMatchedBytes enc)

/-- A string that is a value takes the strings of its length that it agrees with nowhere. -/
def From.onString : From σ Str → Term → TermMatcher σ
  | .value val, .string str =>
    takesIf (decide (val.length = str.length ∧ ¬ EString.AgreeSomewhere val str)) fun v => v
  | .value _, _ => fails
  | arg, t => arg.on [] t.intoString t.enc

/-- A float is compared by its number, and a wildcard does not look at the text. -/
def From.onFloat (format : FloatFormat) (ndebug : Bool) (t : Term) :
    From σ Float → TermMatcher σ
  | .value val =>
    takesIf ((t.number format ndebug).any (Float_.equalDoubles val)) fun v => v
  | .pointer toAssign => fun v =>
    (t.number format ndebug).map fun decoded => (0, toAssign.set decoded v)
  | .any o => takesIf t.digits.isSome (o.saveMatchedBytes t.enc)

/-- What `match_string_element` compares the byte with, and whether that is it. -/
def From.hits (c : UInt8) : From σ Int32 → Bool
  | .value val => decide (val = IntObject.ofElement c)
  | .pointer _ => true
  | .any _ => decide (0 = IntObject.ofElement c)

/-- A `list<int_>` of values: none of them is to be the byte in its place of a packed list. -/
def onPacked (args : List (From σ Int32)) (str : Str) : TermMatcher σ :=
  takesIf (decide (args.length = str.length) && !(args.zip str).any fun z => z.1.hits z.2)
    fun v => v

namespace AnyObject

variable (o : AnyObject σ)

/-- In the end, what has been collected is assigned. -/
def assigning (d : TermMatcher σ) : TermMatcher σ := fun v =>
  (d v).map fun r => (r.1, o.toAssign.set (some (o.matchedRawBytes.get r.2)) r.2)

mutual

/-- An `any` on a term. Of a list it leaves the nil. -/
def on : Term → TermMatcher σ
  | .tuple ts => o.assigning fun v =>
    inSequence (onAll ts) (o.matchedRawBytes.saveMatchedBytes (smallTupleHeadG ts.length) v)
  | .list [] => fails
  | .list (t :: ts) => o.assigning fun v =>
    (inSequence (on t :: onAll ts)
      (o.matchedRawBytes.saveMatchedBytes (listHeadG (t :: ts).length) v)).map fun r =>
        (r.1 + 1, r.2)
  | t => o.assigning (takesIf true (o.matchedRawBytes.saveMatchedBytes t.enc))

def onAll : List Term → List (TermMatcher σ)
  | [] => []
  | t :: ts => on t :: onAll ts

end

end AnyObject

namespace Pattern

variable (format : FloatFormat) (ndebug : Bool)

mutual

/-- A pattern on a term. -/
def on : Pattern σ → Term → TermMatcher σ
  | int arg, t => arg.on 0 t.intoInt t.enc
  | atom arg, t => arg.on [] t.intoAtom t.enc
  | pid arg, t => arg.on .invalid t.intoPid t.enc
  | ref arg, t => arg.on .invalid t.intoRef t.enc
  | binary arg, t => arg.on .empty t.intoBinary t.enc
  | float arg, t => arg.onFloat format ndebug t
  | string arg, t => arg.onString t
  | tuple contained, t =>
    t.tupleElements.elim fails fun ts => inOrder contained.length ts (onAll contained ts)
  | list contained, t =>
    t.listElements.elim fails fun ts => inOrder contained.length ts (onAll contained ts)
  | intList contained, .string str => onPacked contained str
  | intList contained, t =>
    t.listElements.elim fails fun ts => inOrder contained.length ts
      (contained.zipWith (fun arg t => arg.on 0 t.intoInt t.enc) ts)
  | intListOf contained, t => contained.on t.intoIntList
  | atomListOf contained, t => contained.on (t.intoList Term.intoAtom [])
  | pidListOf contained, t => contained.on (t.intoList Term.intoPid .invalid)
  | refListOf contained, t => contained.on (t.intoList Term.intoRef .invalid)
  | floatListOf contained, t => contained.on <|
    (t.listElements.bind (Term.readEach (Term.number format ndebug))).map fun xs => (· ++ xs)
  | any o, t => o.on t

def onAll : List (Pattern σ) → List Term → List (TermMatcher σ)
  | p :: contained, t :: ts => p.on t :: onAll contained ts
  | _, _ => []

end

end Pattern

/-! ### The nils that are left -/

namespace Term

mutual

/-- How many nils end the term, for an `any`. -/
def nilsBehind : Term → ℕ
  | tuple ts => nilsBehindLast ts
  | list (t :: ts) => nilsBehindLast (t :: ts) + 1
  | _ => 0

def nilsBehindLast : List Term → ℕ
  | [] => 0
  | [t] => t.nilsBehind
  | _ :: t :: ts => nilsBehindLast (t :: ts)

end

mutual

/-- The terms that an `any` takes: no list in them is empty, and an element that ends with a list is
the last one. -/
def TakenByAny : Term → Prop
  | tuple ts => AllTakenByAny ts
  | list [] => False
  | list (t :: ts) => AllTakenByAny (t :: ts)
  | _ => True

def AllTakenByAny : List Term → Prop
  | [] => True
  | [t] => t.TakenByAny
  | t :: t' :: ts => t.TakenByAny ∧ t.nilsBehind = 0 ∧ AllTakenByAny (t' :: ts)

end

end Term

namespace Pattern

mutual

/-- How many of them the pattern leaves: those that end what its last `any` has taken. -/
def nilsBehind : Pattern σ → Term → ℕ
  | tuple contained, .tuple ts => nilsBehindLast contained ts
  | list contained, .list ts => nilsBehindLast contained ts
  | any _, t => t.nilsBehind
  | _, _ => 0

def nilsBehindLast : List (Pattern σ) → List Term → ℕ
  | _ :: p :: contained, _ :: t :: ts => nilsBehindLast (p :: contained) (t :: ts)
  | p :: _, t :: _ => p.nilsBehind t
  | _, _ => 0

end

end Pattern

end TinchPp
