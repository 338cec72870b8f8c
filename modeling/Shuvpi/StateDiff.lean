import Shuvpi.DeltaEmits

/-!
# The diff of two revisions

`diffRevisions` of `chord/state`. The diff compares containers by identity before it
compares them by content, so a revision is a tree whose containers carry the
reference under which the program holds them. Containers with the same reference are
the same container: `Heap` is what holds of the values that are alive together.
`String(number)` enters only through its length, in the cost that decides whether a
batch is replaced by a base, and is a parameter.
-/
open List

namespace Shuvpi

/-- A JSON value with the references of its containers. -/
inductive Rev where
  | null
  | boolean (b : Bool)
  | number (x : JsNumber)
  | string (s : JsString)
  | array (ref : Nat) (items : List Rev)
  | object (ref : Nat) (props : List (JsString × Rev))

namespace Rev

mutual
/-- The JSON value, without references. -/
def erase : Rev → Json
  | .null => .null
  | .boolean b => .boolean b
  | .number x => .number x
  | .string s => .string s
  | .array _ items => .array (eraseItems items)
  | .object _ props => .object (eraseProps props)

def eraseItems : List Rev → List Json
  | [] => []
  | value :: items => erase value :: eraseItems items

def eraseProps : List (JsString × Rev) → List (JsString × Json)
  | [] => []
  | (key, value) :: props => (key, erase value) :: eraseProps props
end

def doc (value : Rev) : Doc := value.erase.doc

def ref? : Rev → Option Nat
  | .array ref _ => some ref
  | .object ref _ => some ref
  | _ => none

theorem eraseItems_eq (items : List Rev) : eraseItems items = items.map erase := by
  induction items with
  | nil => rfl
  | cons value items ih => rw [eraseItems, map_cons, ih]

theorem eraseProps_get? (props : List (JsString × Rev)) (key : JsString) :
    JsProps.get? (eraseProps props) key = (JsProps.get? props key).map erase := by
  induction props with
  | nil => rfl
  | cons p props ih =>
    rw [eraseProps, JsProps.get?_cons, JsProps.get?_cons, ih]
    split <;> rfl

theorem doc_array (ref : Nat) (items : List Rev) : (Rev.array ref items).doc = .seq (items.map doc) := by
  rw [doc, erase, Json.doc_array, eraseItems_eq, map_map]
  rfl

theorem doc_object (ref : Nat) (props : List (JsString × Rev)) :
    (Rev.object ref props).doc = .record fun key => (JsProps.get? props key).map doc := by
  rw [doc, erase, Json.doc_object]
  congr 1
  funext key
  rw [eraseProps_get?, Option.map_map]
  rfl

/-- Induction over a value and all it contains. -/
theorem induction {motive : Rev → Prop} (null : motive .null) (boolean : ∀ b, motive (.boolean b))
    (number : ∀ x, motive (.number x)) (string : ∀ s, motive (.string s))
    (array : ∀ ref items, (∀ v ∈ items, motive v) → motive (.array ref items))
    (object : ∀ ref props, (∀ p ∈ props, motive p.2) → motive (.object ref props)) (value : Rev) : motive value := by
  match value with
  | .null => exact null
  | .boolean b => exact boolean b
  | .number x => exact number x
  | .string s => exact string s
  | .array ref items =>
    apply array ref items
    intro v hv
    exact induction null boolean number string array object v
  | .object ref props =>
    apply object ref props
    intro p hp
    exact induction null boolean number string array object p.2
termination_by sizeOf value
decreasing_by
  · have := List.sizeOf_lt_of_mem hv
    simp only [Rev.array.sizeOf_spec]
    omega
  · have := List.sizeOf_lt_of_mem hp
    obtain ⟨key, v⟩ := p
    simp only [Rev.object.sizeOf_spec, Prod.mk.sizeOf_spec] at this ⊢
    omega

end Rev

/-- What holds of the values that are alive at one time: a reference belongs to one
container, what a live container holds is alive, and an object has each key once. -/
structure Heap (live : Rev → Prop) : Prop where
  identity : ∀ u v, live u → live v → ∀ ref, u.ref? = some ref → v.ref? = some ref → u = v
  item : ∀ ref items, live (.array ref items) → ∀ v ∈ items, live v
  prop : ∀ ref props, live (.object ref props) → (JsProps.keys props).Nodup ∧ ∀ p ∈ props, live p.2

namespace StateDiff

open Delta DataTree

def DEFAULT_OVERLAP_SCAN : Nat := 65536
def MAX_DELTA_OPERATIONS : Nat := 4096

/-- `left === right` -/
def same : Rev → Rev → Bool
  | .null, .null => true
  | .boolean b, .boolean b' => b == b'
  | .number x, .number x' => x.unsigned == x'.unsigned
  | .string s, .string s' => s == s'
  | .array ref _, .array ref' _ => ref == ref'
  | .object ref _, .object ref' _ => ref == ref'
  | _, _ => false

def emitSet (path : Path) (value : Rev) (operations : List Op) : List Op :=
  operations ++ [if path = [] then .r value.erase else .s path value.erase]

mutual
def equalJson : Rev → Rev → Bool
  | .array ref items, right => same (.array ref items) right ||
    match right with
    | .array _ items' => items.length == items'.length && equalItems items items'
    | _ => false
  | .object ref props, right => same (.object ref props) right ||
    match right with
    | .object _ props' => props.length == props'.length && equalProps props props'
    | _ => false
  | left, right => same left right

def equalItems : List Rev → List Rev → Bool
  | value :: items, value' :: items' => equalJson value value' && equalItems items items'
  | _, _ => true

def equalProps : List (JsString × Rev) → List (JsString × Rev) → Bool
  | [], _ => true
  | (key, value) :: props, other =>
    match JsProps.get? other key with
    | some value' => equalJson value value' && equalProps props other
    | none => false
end

/-! ## Permutations -/

/-- An entry of the map from values to their positions. -/
structure Positions where
  value : Rev
  indices : List Nat
  used : Nat

def addPosition (value : Rev) (index : Nat) : List Positions → List Positions
  | [] => [⟨value, [index], 0⟩]
  | entry :: positions =>
    if same entry.value value then { entry with indices := entry.indices ++ [index] } :: positions
    else entry :: addPosition value index positions

def positionsOf : List Rev → Nat → List Positions → List Positions
  | [], _, positions => positions
  | value :: items, index, positions => positionsOf items (index + 1) (addPosition value index positions)

/-- The next unused position of a value. -/
def takePosition (value : Rev) : List Positions → Option (Nat × List Positions)
  | [] => none
  | entry :: positions =>
    if same entry.value value then
      match entry.indices[entry.used]? with
      | some index => some (index, { entry with used := entry.used + 1 } :: positions)
      | none => none
    else
      match takePosition value positions with
      | some (index, positions) => some (index, entry :: positions)
      | none => none

def takePositions : List Rev → List Positions → Option (List Nat)
  | [], _ => some []
  | value :: items, positions =>
    match takePosition value positions with
    | some (index, positions) => (takePositions items positions).map fun order => index :: order
    | none => none

def permutation (before after : List Rev) : Option (List Nat) :=
  if before.length ≠ after.length then none else takePositions after (positionsOf before 0 [])

/-! ## Shifts of the same length -/

/-- `a[index] === b[index - shift]` for every index from `shift` on. -/
def matchesFrom : List Rev → List Rev → Bool
  | [], _ => true
  | _ :: _, [] => false
  | x :: xs, y :: ys => same x y && matchesFrom xs ys

/-- The first shift, among the first 16 candidates, by which `a` runs into `b`. The
candidates are the positions where `a` has the first element of `b`. -/
def findShift (a b : List Rev) (shift candidates : Nat) : Nat → Option Nat
  | 0 => none
  | fuel + 1 =>
    if shift < a.length ∧ candidates < 16 then
      match a[shift]?, b.head? with
      | some x, some y =>
        if same x y then
          if matchesFrom (a.drop shift) b then some shift else findShift a b (shift + 1) (candidates + 1) fuel
        else findShift a b (shift + 1) candidates fuel
      | _, _ => none
    else none

def emitSameLengthShift (before after : List Rev) (path : Path) : Option (List Op) :=
  let length := before.length
  if length < 2 then none
  else
    match findShift before after 1 0 length with
    | some removed =>
      some [.p path 0 removed [], .p path (length - removed) 0 ((after.drop (length - removed)).map Rev.erase)]
    | none =>
      match findShift after before 1 0 length with
      | some inserted => some [.p path 0 0 ((after.take inserted).map Rev.erase), .p path length inserted []]
      | none => none

/-! ## The diff -/

/-- The elements at the beginning of both lists that are JSON-equal. -/
def commonLength : List Rev → List Rev → Nat
  | x :: xs, y :: ys => if equalJson x y then commonLength xs ys + 1 else 0
  | _, _ => 0

def mismatches : List Rev → List Rev → Nat
  | x :: xs, y :: ys => (if same x y then 0 else 1) + mismatches xs ys
  | _, _ => 0

/-- `elements` is the loop over the elements of arrays of one length. -/
def diffArray (before after : List Rev) (path : Path) (elements : List Op → List Op) (operations : List Op) :
    List Op :=
  if before.length = after.length then
    if mismatches before after = 0 then operations
    else
      let structural :=
        if mismatches before after > 1 then
          match permutation before after with
          | some order => some [.m path order]
          | none => emitSameLengthShift before after path
        else none
      match structural with
      | some ops => operations ++ ops
      | none => elements operations
  else
    let shortest := min before.length after.length
    let front := commonLength before after
    -- the common end may not reach into the common beginning
    let back := min (commonLength before.reverse after.reverse) (shortest - front)
    operations ++ [.p path front (before.length - front - back)
      (((after.take (after.length - back)).drop front).map Rev.erase)]

def deleteKeys (after : List (JsString × Rev)) (path : Path) : List JsString → List Op → List Op
  | [], operations => operations
  | key :: keys, operations =>
    if operations.length > MAX_DELTA_OPERATIONS then operations
    else
      deleteKeys after path keys
        (if JsProps.hasOwn after key then operations else operations ++ [.d (path ++ [.key key])])

def isReserved (key : JsString) : Bool := Seg.reserved (.key key)

/-- `sets` is the loop over the keys of `after`. -/
def diffObject (before after : Rev) (beforeProps afterProps : List (JsString × Rev)) (path : Path)
    (sets : List Op → List Op) (operations : List Op) : List Op :=
  if (JsProps.keys beforeProps ++ JsProps.keys afterProps).any isReserved then
    if equalJson before after then operations else emitSet path after operations
  else
    let operations := sets operations
    -- an overlong batch ends the loop over `after` and the one over `before` alike
    deleteKeys afterProps path (JsProps.keys beforeProps) operations

mutual
def diffValue (before : Rev) : Rev → Path → List Op → List Op
  | .array ref items, path, operations =>
    if same before (.array ref items) || operations.length > MAX_DELTA_OPERATIONS then operations
    else
      match before with
      | .array _ items' => diffArray items' items path (diffItems items' items 0 path) operations
      | _ => emitSet path (.array ref items) operations
  | .object ref props, path, operations =>
    if same before (.object ref props) || operations.length > MAX_DELTA_OPERATIONS then operations
    else
      match before with
      | .object _ props' =>
        diffObject before (.object ref props) props' props path (diffKeys props' props path) operations
      | _ => emitSet path (.object ref props) operations
  | after, path, operations =>
    if same before after || operations.length > MAX_DELTA_OPERATIONS then operations
    else
      match before, after with
      | .string b, .string a =>
        if path = [] then emitSet path after operations
        else operations ++ emitString DEFAULT_OVERLAP_SCAN b a path
      | _, _ => emitSet path after operations

def diffItems (before : List Rev) : List Rev → Nat → Path → List Op → List Op
  | [], _, _, operations => operations
  | value :: items, index, path, operations =>
    if operations.length > MAX_DELTA_OPERATIONS then operations
    else
      match before with
      | value' :: before =>
        diffItems before items (index + 1) path (diffValue value' value (path ++ [.index index]) operations)
      | [] => operations

def diffKeys (before : List (JsString × Rev)) : List (JsString × Rev) → Path → List Op → List Op
  | [], _, operations => operations
  | (key, value) :: props, path, operations =>
    if operations.length > MAX_DELTA_OPERATIONS then operations
    else
      diffKeys before props path
        (match JsProps.get? before key with
          | some value' => diffValue value' value (path ++ [.key key]) operations
          | none => emitSet (path ++ [.key key]) value operations)
end

/-! ## The cost of a batch -/

section Cost

-- `String(value).length` of a number
variable (numberLength : JsNumber → Nat)

mutual
def jsonCost : Json → Nat
  | .null => 4
  | .string s => s.length + 2
  | .number x => numberLength x
  | .boolean b => if b then 4 else 5
  | .array items => 2 + itemsCost 0 items
  | .object props => 2 + propsCost 0 props

/-- Every element but the first has a comma before it. -/
def itemsCost (separator : Nat) : List Json → Nat
  | [] => 0
  | value :: items => jsonCost value + separator + itemsCost 1 items

def propsCost (separator : Nat) : List (JsString × Json) → Nat
  | [] => 0
  | (key, value) :: props => key.length + 3 + jsonCost value + separator + propsCost 1 props
end

/-- `2` for the brackets, the texts, and a comma between them. -/
def listCost (texts : List Nat) : Nat := 2 + texts.sum + (texts.length - 1)

def segCost : Seg → Nat
  | .key name => name.length + 2
  | .index n => (decimal n).length

def pathCost (path : Path) : Nat := listCost (path.map segCost)

def operationCost : Op → Nat
  | .r value => 6 + jsonCost numberLength value
  | .s path value => 7 + pathCost path + jsonCost numberLength value
  | .d path => 6 + pathCost path
  | .a path text => 7 + pathCost path + text.length + 2
  | .t path count => 7 + pathCost path + (decimal count).length
  | .p path index remove items =>
    10 + pathCost path + (decimal index).length + (decimal remove).length + jsonCost numberLength (.array items)
  | .m path order => 7 + pathCost path + listCost (order.map fun j => (decimal j).length)

def diffRevisions (before after : Rev) : List Op :=
  let operations := diffValue before after [] []
  if operations.length > MAX_DELTA_OPERATIONS then [.r after.erase]
  else if operations.length = 0 || isBase operations then operations
  else
    let deltaCost := 2 + (operations.map fun op => operationCost numberLength op + 1).sum
    if deltaCost < 65536 then operations
    else if deltaCost ≥ jsonCost numberLength after.erase + 6 then [.r after.erase]
    else operations

end Cost

/-! ## Equality -/

section Proofs

variable {live : Rev → Prop} (heap : Heap live)

include heap

theorem same_doc {u v : Rev} (hu : live u) (hv : live v) (h : same u v = true) : u.doc = v.doc := by
  cases u with
  | null => cases v with
    | null => rfl
    | _ => cases h
  | boolean b => cases v with
    | boolean b' => rw [same, beq_iff_eq] at h; rw [h]
    | _ => cases h
  | number x => cases v with
    | number x' =>
      rw [same, beq_iff_eq] at h
      simp only [Rev.doc, Rev.erase, Json.doc, h]
    | _ => cases h
  | string s => cases v with
    | string s' => rw [same, beq_iff_eq] at h; rw [h]
    | _ => cases h
  | array ref items => cases v with
    | array ref' items' =>
      rw [same, beq_iff_eq] at h
      rw [heap.identity _ _ hu hv ref rfl (by rw [h]; rfl)]
    | _ => cases h
  | object ref props => cases v with
    | object ref' props' =>
      rw [same, beq_iff_eq] at h
      rw [heap.identity _ _ hu hv ref rfl (by rw [h]; rfl)]
    | _ => cases h

omit heap in
theorem equalItems_doc {items items' : List Rev} (hlen : items.length = items'.length)
    (ih : ∀ x ∈ items, ∀ y ∈ items', equalJson x y = true → x.doc = y.doc) (h : equalItems items items' = true) :
    items.map Rev.doc = items'.map Rev.doc := by
  induction items generalizing items' with
  | nil =>
    rw [length_nil, eq_comm, length_eq_zero_iff] at hlen
    rw [hlen]
  | cons x items ihl =>
    cases items' with
    | nil => cases hlen
    | cons y items' =>
      rw [equalItems, Bool.and_eq_true] at h
      rw [map_cons, map_cons, ih x mem_cons_self y mem_cons_self h.1]
      rw [ihl (by simpa using hlen) _ h.2]
      intro x' hx' y' hy'
      exact ih x' (mem_cons_of_mem _ hx') y' (mem_cons_of_mem _ hy')

omit heap in
theorem equalProps_get? {props other : List (JsString × Rev)} (h : equalProps props other = true) {key : JsString}
    {value : Rev} (hmem : (key, value) ∈ props) :
    ∃ value', JsProps.get? other key = some value' ∧ equalJson value value' = true := by
  induction props with
  | nil => cases hmem
  | cons p props ih =>
    obtain ⟨k, v⟩ := p
    rw [equalProps] at h
    cases hget : JsProps.get? other k with
    | none => rw [hget] at h; cases h
    | some v' =>
      rw [hget, Bool.and_eq_true] at h
      rcases mem_cons.mp hmem with he | hmem
      · cases he
        exact ⟨v', hget, h.1⟩
      · exact ih h.2 hmem

/-- JSON equality by content, as the program decides it. -/
theorem equalJson_doc (u : Rev) : ∀ v, live u → live v → equalJson u v = true → u.doc = v.doc := by
  induction u using Rev.induction with
  | array ref items ih =>
    intro v hu hv h
    cases v with
    | array ref' items' =>
      simp only [equalJson, Bool.or_eq_true, Bool.and_eq_true, beq_iff_eq] at h
      rcases h with h | h
      · exact same_doc heap hu hv h
      · rw [Rev.doc_array, Rev.doc_array]
        congr 1
        apply equalItems_doc h.1 _ h.2
        intro x hx y hy
        exact ih x hx y (heap.item _ _ hu x hx) (heap.item _ _ hv y hy)
    | _ => simp [equalJson, same] at h
  | object ref props ih =>
    intro v hu hv h
    cases v with
    | object ref' props' =>
      simp only [equalJson, Bool.or_eq_true, Bool.and_eq_true, beq_iff_eq] at h
      rcases h with h | h
      · exact same_doc heap hu hv h
      · obtain ⟨hnd, hlive⟩ := heap.prop _ _ hu
        obtain ⟨_, hlive'⟩ := heap.prop _ _ hv
        have hget : ∀ key value, JsProps.get? props key = some value →
            ∃ value', JsProps.get? props' key = some value' ∧ value.doc = value'.doc := by
          intro key value hk
          have hmem := JsProps.mem_of_get? hk
          obtain ⟨value', hk', he⟩ := equalProps_get? h.2 hmem
          exact ⟨value', hk', ih _ hmem value' (hlive _ hmem) (hlive' _ (JsProps.mem_of_get? hk')) he⟩
        -- as many keys, all of them found: no key of the other side is left over
        have hkeys : ∀ key, key ∈ JsProps.keys props' → key ∈ JsProps.keys props := by
          have hsub : (JsProps.keys props).Subperm (JsProps.keys props') := by
            apply hnd.subperm
            intro key hkey
            obtain ⟨value, hmem⟩ := JsProps.mem_keys.mp hkey
            obtain ⟨value', hk', _⟩ := equalProps_get? h.2 hmem
            exact JsProps.mem_keys.mpr ⟨value', JsProps.mem_of_get? hk'⟩
          have hperm := hsub.perm_of_length_le (by simp only [JsProps.keys, length_map]; omega)
          intro key hkey
          exact hperm.symm.subset hkey
        rw [Rev.doc_object, Rev.doc_object]
        congr 1
        funext key
        cases hk : JsProps.get? props key with
        | some value =>
          obtain ⟨value', hk', he⟩ := hget key value hk
          rw [hk', Option.map_some, Option.map_some, he]
        | none =>
          have hnot : key ∉ JsProps.keys props' := by
            intro hmem
            exact (JsProps.get?_eq_none_iff _ _).mp hk (hkeys key hmem)
          rw [(JsProps.get?_eq_none_iff _ _).mpr hnot]
    | _ => simp [equalJson, same] at h
  | _ => intro v hu hv h; exact same_doc heap hu hv (by cases v <;> exact h)

end Proofs

end StateDiff
end Shuvpi
