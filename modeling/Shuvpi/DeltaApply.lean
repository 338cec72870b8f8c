import Shuvpi.DeltaOps

/-!
# Applying operations

`apply` and `applyImmutable` of `chord/delta`. The source mutates the containers of
its target in place, or copies the ones along the path first; either way the value
that results is the tree computed here, so both are functions from a tree to a tree.
A missing target (`undefined`) is `none`. Errors are thrown in the order of the
source and carry the paths and segments it puts in them.
-/
namespace Shuvpi.Delta

open JsText (ofString)
open List

variable {α : Type}

/-! ## Splices -/

/-- `target.splice(index, remove, ...items)`; both counts are clamped to the target. -/
def splice (target : List α) (index remove : Nat) (items : List α) : List α :=
  target.take index ++ items ++ target.drop (index + remove)

def chunkSize : Nat := 10000

/-- The loop that inserts the items in chunks; `fuel` bounds the number of rounds. -/
def insertChunks (fuel : Nat) (target : List α) (index : Nat) (items : List α) : List α :=
  match fuel with
  | 0 => target
  | fuel + 1 =>
    if items.isEmpty then target
    else insertChunks fuel (splice target index 0 (items.take chunkSize)) (index + chunkSize) (items.drop chunkSize)

/-- The elements of an array after `index..index+remove` has been replaced. -/
def spliceItems (target : List α) (index remove : Nat) (items : List α) : List α :=
  insertChunks items.length (splice target index remove []) index items

theorem take_append_length (l l' : List α) : (l ++ l').take l.length = l := by simp

variable (target : List α)

theorem splice_eq (index : Nat) (items : List α) (h : index ≤ target.length) :
    ∃ before after, target = before ++ after ∧ before.length = index ∧
      splice target index 0 items = before ++ items ++ after := by
  refine ⟨target.take index, target.drop index, (take_append_drop _ _).symm, ?_, by simp [splice]⟩
  rw [length_take]
  omega

theorem splice_past (index remove : Nat) (items : List α) (h : target.length ≤ index) :
    splice target index remove items = target ++ items := by
  simp only [splice]
  rw [take_of_length_le h, drop_eq_nil_of_le (by omega), append_nil]

theorem splice_twice (index : Nat) (items items' : List α) :
    splice (splice target index 0 items) (index + items.length) 0 items' = splice target index 0 (items ++ items') := by
  by_cases h : index ≤ target.length
  · obtain ⟨before, after, rfl, rfl, hs⟩ := splice_eq target index items h
    obtain ⟨before', after', he, hlen, hs'⟩ := splice_eq (before ++ after) before.length (items ++ items') h
    obtain ⟨rfl, rfl⟩ := append_inj he hlen.symm
    rw [hs, hs', splice, Nat.add_zero, ← length_append, take_append_length, drop_left]
    simp only [append_assoc]
  · rw [splice_past target index 0 items (by omega), splice_past target index 0 (items ++ items') (by omega),
      splice_past _ _ 0 items' (by rw [length_append]; omega), append_assoc]

theorem insertChunks_eq (fuel : Nat) (target : List α) (index : Nat) (items : List α) (hfuel : items.length ≤ fuel) :
    insertChunks fuel target index items = splice target index 0 items := by
  induction fuel generalizing target index items with
  | zero =>
    have hnil : items = [] := length_eq_zero_iff.mp (by omega)
    simp [insertChunks, hnil, splice]
  | succ fuel ih =>
    rw [insertChunks]
    cases items with
    | nil => simp [splice]
    | cons x items =>
      simp only [isEmpty_cons, Bool.false_eq_true, if_false]
      have hchunk : 0 < chunkSize := by decide
      rw [ih _ _ _ (by rw [length_drop]; omega)]
      by_cases hlast : (x :: items).length ≤ chunkSize
      · rw [drop_eq_nil_of_le hlast, take_of_length_le hlast]
        simp [splice]
      · have htake : ((x :: items).take chunkSize).length = chunkSize := by rw [length_take]; omega
        have hsplit := splice_twice target index ((x :: items).take chunkSize) ((x :: items).drop chunkSize)
        rwa [htake, take_append_drop] at hsplit

/-- Inserting in chunks is inserting at once. -/
theorem spliceItems_eq (index remove : Nat) (items : List α) :
    spliceItems target index remove items = splice target index remove items := by
  rw [spliceItems, insertChunks_eq _ _ _ _ (Nat.le_refl _)]
  by_cases h : index ≤ target.length
  · have hlen : (target.take index).length = index := by rw [length_take]; omega
    obtain ⟨before, after, he, hb, hs⟩ := splice_eq (splice target index remove []) index items
      (by simp only [splice, append_nil, length_append, hlen]; omega)
    rw [hs]
    rw [splice, append_nil] at he
    obtain ⟨rfl, rfl⟩ := append_inj he (by omega)
    rfl
  · rw [splice_past target index remove [] (by omega), splice_past target index remove items (by omega),
      append_nil, splice_past target index 0 items (by omega)]

/-! ## Walking a path -/

def isObj : Json → Bool
  | .array _ => true
  | .object _ => true
  | _ => false

/-- The own property of an object, or the element of an array, that a segment names.
A walk reads own properties only. -/
def child? : Json → Seg → Option Json
  | .array items, .index n => items[n]?
  | .object props, seg => JsProps.get? props seg.name
  | _, _ => none

/-- The container with one existing child replaced. -/
def setChild : Json → Seg → Json → Json
  | .array items, .index n, value => .array (items.set n value)
  | .object props, seg, value => .object (JsProps.define props seg.name value)
  | node, _, _ => node

/-- One step of `resolveValue` on the way to `whole`. -/
def stepInto (whole : Path) (node : Json) (seg : Seg) : Except DeltaError Json :=
  match node, seg with
  | .array _, .key _ => .error (.unsafePath seg)
  | node, seg =>
    match child? node seg with
    | some child => .ok child
    | none => .error (.pathError whole)

/-- `resolve(root, whole)`, then `f` on the container found, in place. -/
def modifyAt (whole : Path) (f : Json → Except DeltaError Json) : Path → Json → Except DeltaError Json
  | [], node => if isObj node then f node else .error (.pathError whole)
  | seg :: rest, node => do
    let child ← stepInto whole node seg
    let changed ← modifyAt whole f rest child
    return setChild node seg changed

/-! ## Operations -/

/-- The value of the property or element that the last segment names. -/
def read (parent : Json) (key : Seg) : Option Json := child? parent key

/-- `Object.defineProperty(parent, key, ...)` where an index is at most the length. -/
def write (parent : Json) (key : Seg) (value : Json) : Json :=
  match parent, key with
  | .array items, .index n => .array (if n < items.length then items.set n value else items ++ [value])
  | .object props, key => .object (JsProps.define props key.name value)
  | parent, _ => parent

/-- The checks on the last segment when the parent is an array. -/
def assertIndexInRange (parent : Json) (key : Seg) : Except DeltaError Unit :=
  match parent, key with
  | .array _, .key _ => .error (.unsafePath key)
  | .array items, .index n => if n > items.length then .error (.unsafePath key) else .ok ()
  | _, _ => .ok ()

def readString (path : Path) (parent : Json) (key : Seg) : Except DeltaError JsString :=
  match read parent key with
  | some (.string s) => .ok s
  | _ => .error (.pathError path)

def deleteKey (path : Path) (parent : Json) (key : Seg) : Except DeltaError Json :=
  match parent, key with
  | .array items, .index n => if n < items.length then .ok (.array (items.eraseIdx n)) else .error (.pathError path)
  | .object props, key => .ok (.object (JsProps.erase props key.name))
  | parent, _ => .ok parent

/-- What `s`, `d`, `a` and `t` do to the parent container. -/
def applyToParent (op : Op) (key : Seg) (parent : Json) : Except DeltaError Json := do
  assertIndexInRange parent key
  match op with
  | .s _ value => return write parent key value
  | .d path => deleteKey path parent key
  | .a path text =>
    let current ← readString path parent key
    return write parent key (.string (current ++ text))
  | .t path count =>
    let current ← readString path parent key
    return write parent key (.string (current.drop count))
  | _ => return parent

def applySplice (path : Path) (index remove : Nat) (items : List Json) : Json → Except DeltaError Json
  | .array target => .ok (.array (spliceItems target index remove items))
  | _ => .error (.pathError path)

def applyOrder (path : Path) (order : List Nat) : Json → Except DeltaError Json
  | .array previous =>
    if previous.length = order.length then .ok (.array (order.map fun j => previous.getD j .null))
    else .error (.pathError path)
  | _ => .error (.pathError path)

/-- A missing target resolves like a primitive. -/
def orUndefined (path : Path) : Option Json → Except DeltaError Json
  | some root => .ok root
  | none => .error (.pathError path)

def applyOp (root : Option Json) (op : Op) : Except DeltaError Json := do
  assertValidOp op
  match op with
  | .r value => return value
  | .p path index remove items => modifyAt path (applySplice path index remove items) path (← orUndefined path root)
  | .m path order => modifyAt path (applyOrder path order) path (← orUndefined path root)
  | op =>
    match op.path.getLast? with
    | none => throw (.typeError "path is empty")
    | some key =>
      modifyAt op.path.dropLast (applyToParent op key) op.path.dropLast (← orUndefined op.path.dropLast root)

/-- `apply(target, ops)`. -/
def apply (root : Option Json) : List Op → Except DeltaError (Option Json)
  | [] => .ok root
  | op :: ops => do
    let next ← applyOp root op
    apply (some next) ops

/-! ## Immutable application -/

/-- `Object.hasOwn(node, segment)`. -/
def hasOwn (node : Json) (seg : Seg) : Bool :=
  match node, seg with
  | .array items, .key name =>
    name = ofString "length" || (match JsProps.arrayIndex? name with | some n => decide (n < items.length) | none => false)
  | node, seg => (child? node seg).isSome

/-- Whether the containers along a path can be copied. The copies hold what the
originals hold, so only the errors remain. -/
def copyContainers (whole : Path) : Path → Json → Except DeltaError Unit
  | [], node => if isObj node then .ok () else .error (.pathError whole)
  | seg :: rest, node =>
    if !isObj node || !hasOwn node seg then .error (.pathError whole)
    else
      match child? node seg with
      | none => .error (.unsafePath seg)
      | some child => copyContainers whole rest child

/-- The container path of an operation: what is copied before it is applied. -/
def Op.containerPath (op : Op) : Path := if op.rootAllowed then op.path else op.path.dropLast

def applyImmutable (root : Option Json) : List Op → Except DeltaError (Option Json)
  | [] => .ok root
  | .r value :: ops => applyImmutable (some value) ops
  | op :: ops => do
    copyContainers op.containerPath op.containerPath (← orUndefined op.containerPath root)
    let next ← applyOp root op
    applyImmutable (some next) ops

end Shuvpi.Delta
