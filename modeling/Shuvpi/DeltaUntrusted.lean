import Shuvpi.Cbor
import Shuvpi.DeltaApply
import Shuvpi.DeltaCodec

/-!
# Operations that nobody vouches for

`assertValidWireOp`, `decode`, `assertValidOp` and `apply` of `chord/delta` on arbitrary
values: a wire operation here is whatever stands in the array that was received. The
document is walked as the source walks it, with a record of every access to a property:
what is read, what is defined or deleted, and how the length of an array changes. A read
goes to the own properties first and then to the prototypes, which are a parameter.

Values are trees. A batch that has crossed a boundary shares no containers; what a class
instance or a byte array holds is not looked at.
-/
namespace Shuvpi.Delta.Untrusted

open Cbor (JsValue)
open JsText (ofString)

inductive OpError where
  | typeError (message : String)
  | unknownVerb (verb : JsValue)
  | unsafePath (segment : JsValue)
  | pathError (path : List JsValue)
  | pathIdError (id : JsNumber)

/-! ## Validation -/

/-- An absent element reads as `undefined`. -/
def element : JsValue → JsValue
  | .hole => .undefined
  | value => value

/-- `Number.isInteger(value) && value >= 0` -/
def isCount : JsValue → Bool
  | .number x => x.isInteger && !decide (x.toInt < 0)
  | _ => false

def count : JsValue → Nat
  | .number x => x.magnitude
  | _ => 0

def isSafeSegment : JsValue → Bool
  | .string s => !decide (s ∈ RESERVED_SEGMENTS)
  | value => isCount value

/-- The segment that a safe value stands for. -/
def segment : JsValue → Seg
  | .string s => .key s
  | value => .index (count value)

def assertSafePath : List JsValue → Except OpError Unit
  | [] => .ok ()
  | seg :: path => if isSafeSegment seg then assertSafePath path else .error (.unsafePath (element seg))

def assertPathArg (value : JsValue) (nonEmpty : Bool) : Except OpError Unit :=
  match value with
  | .array path =>
    if nonEmpty && path.isEmpty then .error (.typeError "path is empty") else assertSafePath path
  | _ => .error (.typeError "path is not an array")

def assertDistinctIndices (length : Nat) : List Nat → List JsValue → Except OpError Unit
  | _, [] => .ok ()
  | seen, index :: rest =>
    if isCount index && decide (count index < length) && !decide (count index ∈ seen) then
      assertDistinctIndices length (count index :: seen) rest
    else .error (.typeError "m permutation is not a bijection")

def assertPermutation : JsValue → Except OpError Unit
  | .array order => assertDistinctIndices order.length [] order
  | _ => .error (.typeError "m permutation is not an array")

def isString : JsValue → Bool
  | .string _ => true
  | _ => false

def isArray : JsValue → Bool
  | .array _ => true
  | _ => false

/-- The verb of a tuple. -/
def verbOf : JsValue → Option Verb
  | .string s =>
    if s = ofString "r" then some .r
    else if s = ofString "s" then some .s
    else if s = ofString "d" then some .d
    else if s = ofString "a" then some .a
    else if s = ofString "t" then some .t
    else if s = ofString "p" then some .p
    else if s = ofString "m" then some .m
    else if s = ofString "#" then some .define
    else none
  | _ => none

def check (holds : Bool) (message : String) : Except OpError Unit :=
  if holds then .ok () else .error (.typeError message)

def assertValidOp : JsValue → Except OpError Unit
  | .array (verb :: args) =>
    match verbOf verb, args with
    | some .r, args => check (args.length = 1) "r arity"
    | some .s, [path, _] => assertPathArg path true
    | some .s, _ => .error (.typeError "s arity")
    | some .d, [path] => assertPathArg path true
    | some .d, _ => .error (.typeError "d arity")
    | some .a, [path, text] => do
      check (isString text) "a shape"
      assertPathArg path true
    | some .a, _ => .error (.typeError "a shape")
    | some .t, [path, n] => do
      check (isCount n) "t shape"
      assertPathArg path true
    | some .t, _ => .error (.typeError "t shape")
    | some .p, [path, index, remove, items] => do
      assertPathArg path false
      check (isCount index) "p index"
      check (isCount remove) "p remove"
      check (isArray items) "p items"
    | some .p, _ => .error (.typeError "p arity")
    | some .m, [path, order] => do
      assertPathArg path false
      assertPermutation order
    | some .m, _ => .error (.typeError "m arity")
    | _, _ => .error (.unknownVerb (element verb))
  | _ => .error (.typeError "op is not a tuple")

def okRef : JsValue → Except OpError Unit
  | .number x => check (isCount (.number x)) "bad path id"
  | .array path => assertSafePath path
  | _ => .error (.typeError "path is not an array")

def assertSplice (index remove items : JsValue) : Except OpError Unit := do
  check (isCount index) "p index"
  check (isCount remove) "p remove"
  check (isArray items) "p items"

def assertValidWireOp : JsValue → Except OpError Unit
  | .array (verb :: args) =>
    match verbOf verb, args with
    | some .r, args => check (args.length = 1) "r arity"
    | some .s, [ref, _] => okRef ref
    | some .s, args => check (args.length = 1) "s arity"
    | some .d, [ref] => okRef ref
    | some .d, args => check (args.length = 0) "d arity"
    | some .a, [ref, text] => do
      okRef ref
      check (isString text) "a value"
    | some .a, [text] => check (isString text) "a value"
    | some .a, _ => .error (.typeError "a arity")
    | some .t, [ref, n] => do
      okRef ref
      check (isCount n) "t count"
    | some .t, [n] => check (isCount n) "t count"
    | some .t, _ => .error (.typeError "t arity")
    | some .p, [ref, index, remove, items] => do
      check (!items.isUndefined) "p arity"
      okRef ref
      assertSplice index remove items
    | some .p, [index, remove, items] => do
      check (!items.isUndefined) "p arity"
      assertSplice index remove items
    | some .p, _ => .error (.typeError "p arity")
    | some .m, [ref, order] => do
      okRef ref
      assertPermutation order
    | some .m, [order] => assertPermutation order
    | some .m, _ => .error (.typeError "m arity")
    | some .define, [id, .array path] => do
      check (isCount id) "# shape"
      assertSafePath path
    | some .define, _ => .error (.typeError "# shape")
    | none, _ => .error (.unknownVerb (element verb))
  | _ => .error (.typeError "op is not a tuple")

/-! ## Decoding -/

/-- The paths a decoder has been told, by their ids. -/
abbrev Paths := List (Nat × List JsValue)

/-- The reference and the payload of a tuple other than `r` and `#`; a short form has no
reference. -/
def splitRef : Verb → List JsValue → Option JsValue × List JsValue
  | .d, [] => (none, [])
  | .d, ref :: rest => (some ref, rest)
  | .p, args => if args.length = 3 then (none, args) else (args.head?, args.tail)
  | _, args => if args.length = 1 then (none, args) else (args.head?, args.tail)

def resolveRef (paths : Paths) (previous : Option (List JsValue)) : Option JsValue → Except OpError (List JsValue)
  | none =>
    match previous with
    | none => .error (.pathError [])
    | some path => .ok path
  | some (.number x) =>
    match paths.lookup x.magnitude with
    | none => .error (.pathIdError x)
    | some path => .ok path
  | some (.array path) => .ok path
  | some _ => .error (.typeError "path is not an array")

/-- One turn of the loop: the paths, the previous path, and the operations put out. -/
def decodeOp (paths : Paths) (previous : Option (List JsValue)) (op : JsValue) :
    Except OpError (Paths × Option (List JsValue) × List JsValue) := do
  assertValidWireOp op
  match op with
  | .array (verb :: args) =>
    match verbOf verb, args with
    | some .define, [id, .array path] => return ((count id, path) :: paths, previous, [])
    | some .r, _ => return ([], none, [op])
    | some v, args =>
      let (ref, payload) := splitRef v args
      let path ← resolveRef paths previous ref
      let previous := if ref.isNone then previous else some path
      if v ≠ .p ∧ v ≠ .m ∧ path = [] then throw (.pathError path)
      return (paths, previous, [.array (verb :: .array path :: payload.map element)])
    | none, _ => throw (.unknownVerb (element verb))
  | _ => throw (.typeError "op is not a tuple")

/-- The loop of `decode`. The paths defined before an error stay defined. -/
def decodeOps (paths : Paths) (previous : Option (List JsValue)) : List JsValue → Paths × Except OpError (List JsValue)
  | [] => (paths, .ok [])
  | op :: wire =>
    match decodeOp paths previous op with
    | .error e => (paths, .error e)
    | .ok (paths, previous, out) =>
      match decodeOps paths previous wire with
      | (paths, .error e) => (paths, .error e)
      | (paths, .ok rest) => (paths, .ok (out ++ rest))

def decode (paths : Paths) (wire : List JsValue) : Paths × Except OpError (List JsValue) := decodeOps paths none wire

/-! ## Applying, with a record of the accesses -/

/-- An access to a property of a container. `resize` gives the length of an array before
and after, and the number of items that the operation carries. -/
inductive Access where
  | read (node : JsValue) (key : Seg)
  | define (key : Seg)
  | delete (key : Seg)
  | resize (before after carried : Nat)

/-- A result, and the accesses made on the way to it or to the error. -/
structure Run (α : Type) where
  result : Except OpError α
  accesses : List Access

namespace Run

variable {α β : Type}

def pure (a : α) : Run α := ⟨.ok a, []⟩

def throw (e : OpError) : Run α := ⟨.error e, []⟩

def lift (x : Except OpError α) : Run α := ⟨x, []⟩

def access (a : Access) : Run Unit := ⟨.ok (), [a]⟩

def bind (x : Run α) (f : α → Run β) : Run β :=
  match x.result with
  | .error e => ⟨.error e, x.accesses⟩
  | .ok a => ⟨(f a).result, x.accesses ++ (f a).accesses⟩

instance : Monad Run where
  pure := pure
  bind := bind

end Run

def isObj : JsValue → Bool
  | .array _ => true
  | .object _ _ => true
  | .bytes _ => true
  | .other typeName => typeName == "object"
  | _ => false

/-- The own property that a segment names. -/
def own : JsValue → Seg → Option JsValue
  | .array items, .index n =>
    match items[n]? with
    | some .hole => none
    | item => item
  | .object _ props, seg => JsProps.get? props seg.name
  | _, _ => none

def hasOwn (node : JsValue) (seg : Seg) : Bool := (own node seg).isSome

section Apply

variable (inherited : JsValue → Seg → JsValue)

/-- `node[seg]`: an own property, or what the prototypes give for it. -/
def get (node : JsValue) (seg : Seg) : Run JsValue := do
  Run.access (.read node seg)
  return (own node seg).getD (inherited node seg)

def setOwn : JsValue → Seg → JsValue → JsValue
  | .array items, .index n, value => .array (items.set n value)
  | .object symbols props, seg, value => .object symbols (JsProps.define props seg.name value)
  | node, _, _ => node

/-- `resolve(root, whole)`, then `f` on the container that is found there. -/
def modifyAt (whole : List JsValue) (f : JsValue → Run JsValue) : List JsValue → JsValue → Run JsValue
  | [], node => if isObj node then f node else Run.throw (.pathError whole)
  | seg :: rest, node =>
    if !isObj node then Run.throw (.pathError whole)
    else if isArray node && isString seg then Run.throw (.unsafePath seg)
    else if !hasOwn node (segment seg) then Run.throw (.pathError whole)
    else do
      let child ← get inherited node (segment seg)
      let changed ← modifyAt whole f rest child
      return setOwn node (segment seg) changed

/-- `target.splice(index, remove)` and the insertion of the items in chunks. -/
def applySplice (path : List JsValue) (index remove : Nat) (items : List JsValue) : JsValue → Run JsValue
  | .array target => do
    let next := spliceItems target index remove (items.map element)
    Run.access (.resize target.length next.length items.length)
    return .array next
  | _ => Run.throw (.pathError path)

/-- The elements of `previous` in the given order, which take their places from `index`
on. -/
def reorder (previous : List JsValue) : List JsValue → Nat → Run (List JsValue)
  | [], _ => return []
  | j :: order, index => do
    let item ← get inherited (.array previous) (.index (count j))
    Run.access (.define (.index index))
    let rest ← reorder previous order (index + 1)
    return item :: rest

def applyOrder (path : List JsValue) (order : List JsValue) : JsValue → Run JsValue
  | .array previous =>
    if previous.length = order.length then do
      let items ← reorder inherited previous order 0
      return .array items
    else Run.throw (.pathError path)
  | _ => Run.throw (.pathError path)

/-- `Object.defineProperty(parent, key, ...)`; an index is at most the length. -/
def write (parent : JsValue) (key : Seg) (value : JsValue) : Run JsValue := do
  Run.access (.define key)
  match parent, key with
  | .array items, .index n =>
    if n < items.length then return .array (items.set n value)
    else
      Run.access (.resize items.length (items.length + 1) 0)
      return .array (items ++ [value])
  | .object symbols props, key => return .object symbols (JsProps.define props key.name value)
  | parent, _ => return parent

/-- The string that `a` and `t` start from. -/
def readString (path : List JsValue) (parent : JsValue) (key : Seg) : Run JsString :=
  if hasOwn parent key then do
    match ← get inherited parent key with
    | .string s => return s
    | _ => Run.throw (.pathError path)
  else Run.throw (.pathError path)

def deleteKey (path : List JsValue) (parent : JsValue) (key : Seg) : Run JsValue :=
  match parent, key with
  | .array items, .index n =>
    if n < items.length then do
      Run.access (.resize items.length (items.eraseIdx n).length 0)
      return .array (items.eraseIdx n)
    else Run.throw (.pathError path)
  | .object symbols props, key => do
    Run.access (.delete key)
    return .object symbols (JsProps.erase props key.name)
  | parent, key => do
    Run.access (.delete key)
    return parent

/-- The checks on the last segment when the parent is an array. -/
def assertIndexInRange (parent : JsValue) (key : JsValue) : Run Unit :=
  match parent with
  | .array items =>
    if isString key then Run.throw (.unsafePath key)
    else if count key > items.length then Run.throw (.unsafePath key)
    else return ()
  | _ => return ()

/-- `s`, `d`, `a` and `t` on the container that holds the last segment. -/
def applyToParent (verb : Verb) (path : List JsValue) (key payload parent : JsValue) : Run JsValue := do
  assertIndexInRange parent key
  match verb, payload with
  | .s, value => write parent (segment key) (element value)
  | .d, _ => deleteKey path parent (segment key)
  | .a, .string text => do
    let current ← readString inherited path parent (segment key)
    write parent (segment key) (.string (current ++ text))
  | .t, n => do
    let current ← readString inherited path parent (segment key)
    write parent (segment key) (.string (current.drop (count n)))
  | _, _ => return parent

def applyParts (root : JsValue) (verb : Verb) (path payload : List JsValue) : Run JsValue :=
  match verb, payload with
  | .p, [index, remove, .array items] =>
    modifyAt inherited path (applySplice path (count index) (count remove) items) path root
  | .m, [.array order] => modifyAt inherited path (applyOrder inherited path order) path root
  | verb, payload =>
    match path.getLast? with
    | none => Run.throw (.typeError "path is empty")
    | some key =>
      modifyAt inherited path.dropLast (applyToParent inherited verb path key (payload.headD .undefined)) path.dropLast
        root

def applyOp (root op : JsValue) : Run JsValue := do
  Run.lift (assertValidOp op)
  match op with
  | .array (verb :: args) =>
    match verbOf verb, args with
    | some .r, [value] => return element value
    | some v, .array path :: payload => do
      Run.lift (assertSafePath path)
      applyParts inherited root v path payload
    | _, _ => Run.throw (.typeError "op is not a tuple")
  | _ => Run.throw (.typeError "op is not a tuple")

/-- `apply(target, ops)` -/
def apply (root : JsValue) : List JsValue → Run JsValue
  | [] => return root
  | op :: ops => do
    let root ← applyOp inherited root op
    apply root ops

end Apply

/-! ## What is promised -/

mutual
/-- A JSON value: no `undefined`, no holes, no numbers that are not finite, only plain
objects and arrays. -/
def isJson : JsValue → Bool
  | .null => true
  | .boolean _ => true
  | .number x => x.isFinite
  | .string _ => true
  | .array items => itemsJson items
  | .object symbols props => !symbols && propsJson props
  | _ => false

def itemsJson : List JsValue → Bool
  | [] => true
  | value :: items => isJson value && itemsJson items

def propsJson : List (JsString × JsValue) → Bool
  | [] => true
  | (_, value) :: props => isJson value && propsJson props
end

/-- The values that an operation puts into a document are JSON. -/
def payloadJson : JsValue → Bool
  | .array (verb :: args) =>
    match verbOf verb, args with
    | some .r, [value] => isJson value
    | some .s, [_, value] => isJson value
    | some .p, [_, _, _, .array items] => itemsJson items
    | _, _ => true
  | _ => true

/-- Only own properties are read, no reserved key is written, and an array grows by at
most one more than the operation carries. -/
def Access.Safe : Access → Prop
  | .read node key => hasOwn node key = true
  | .define key => key.reserved = false
  | .delete key => key.reserved = false
  | .resize before after carried => after ≤ before + carried + 1

end Shuvpi.Delta.Untrusted
