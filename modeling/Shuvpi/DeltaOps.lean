import Shuvpi.ExceptOk
import Shuvpi.JsNumber
import Shuvpi.JsProps
import Shuvpi.DataTree

/-!
# JSON values, paths and operations

The vocabulary of `chord/delta`. A JSON value is a finite tree; what its containers
share in memory plays no part here, and an operation that places a payload in a
document places the tree. A segment is a string or an array index; the source's
numeric segments are non-negative integers once `assertSafePath` has passed, so an
index is a natural number. Counts and positions of `t`, `p` and `m` are natural
numbers for the same reason. An index segment that meets an object names the
property spelled by its decimal digits.
-/
namespace Shuvpi

inductive Json where
  | null
  | boolean (b : Bool)
  | number (x : JsNumber)
  | string (s : JsString)
  | array (items : List Json)
  | object (props : List (JsString × Json))

namespace Delta

open JsText (ofString)

/-- `String(n)`. -/
def decimal (n : Nat) : JsString := (Nat.toDigits 10 n).map fun c => UInt16.ofNat c.toNat

abbrev Seg := Step JsString

abbrev Path := List Seg

/-- The property key that a segment names on an object. -/
def Seg.name : Seg → JsString
  | .key name => name
  | .index n => decimal n

inductive Op where
  | r (value : Json)
  | s (path : Path) (value : Json)
  | d (path : Path)
  | a (path : Path) (text : JsString)
  | t (path : Path) (count : Nat)
  | p (path : Path) (index remove : Nat) (items : List Json)
  | m (path : Path) (order : List Nat)

/-- The path an operation is addressed to; `r` replaces the root. -/
def Op.path : Op → Path
  | .r _ => []
  | .s path _ => path
  | .d path => path
  | .a path _ => path
  | .t path _ => path
  | .p path _ _ _ => path
  | .m path _ => path

def Op.isReplace : Op → Bool
  | .r _ => true
  | _ => false

/-- A batch begins with a replacement. -/
def isBase (ops : List Op) : Bool :=
  match ops with
  | op :: _ => op.isReplace
  | [] => false

inductive DeltaError where
  | typeError (message : String)
  | unsafePath (segment : Seg)
  | pathError (path : Path)
  | pathIdError (id : Nat)
  deriving DecidableEq, Repr

def RESERVED_SEGMENTS : List JsString := [ofString "__proto__", ofString "constructor", ofString "prototype"]

def Seg.reserved : Seg → Bool
  | .key name => name ∈ RESERVED_SEGMENTS
  | .index _ => false

def assertSafePath : Path → Except DeltaError Unit
  | [] => .ok ()
  | seg :: rest => if seg.reserved then .error (.unsafePath seg) else assertSafePath rest

def assertPathArg (path : Path) (nonEmpty : Bool) : Except DeltaError Unit := do
  if nonEmpty && path.isEmpty then throw (.typeError "path is empty")
  assertSafePath path

/-- Each index is below `length` and occurs once. -/
def assertDistinct (length : Nat) : List Nat → List Nat → Except DeltaError Unit
  | _, [] => .ok ()
  | seen, index :: rest =>
    if index ≥ length || index ∈ seen then .error (.typeError "m permutation is not a bijection")
    else assertDistinct length (index :: seen) rest

def assertPermutation (order : List Nat) : Except DeltaError Unit := assertDistinct order.length [] order

def assertValidOp : Op → Except DeltaError Unit
  | .r _ => .ok ()
  | .s path _ => assertPathArg path true
  | .d path => assertPathArg path true
  | .a path _ => assertPathArg path true
  | .t path _ => assertPathArg path true
  | .p path _ _ _ => assertPathArg path false
  | .m path order => do
    assertPathArg path false
    assertPermutation order

/-- The paths that an operation of its verb may carry. -/
def Op.rootAllowed : Op → Bool
  | .r _ => true
  | .p _ _ _ _ => true
  | .m _ _ => true
  | _ => false

theorem assertSafePath_ok_iff (path : Path) :
    assertSafePath path = .ok () ↔ ∀ seg ∈ path, seg.reserved = false := by
  induction path with
  | nil => simp [assertSafePath]
  | cons seg rest ih =>
    rw [assertSafePath]
    cases hs : seg.reserved with
    | true => simp [hs]
    | false => simp [hs, ih]

theorem assertSafePath_append (path rest : Path) : assertSafePath (path ++ rest) = .ok () ↔
      assertSafePath path = .ok () ∧ assertSafePath rest = .ok () := by
  simp only [assertSafePath_ok_iff, List.mem_append]
  constructor
  · intro h
    exact ⟨fun seg hs => h seg (.inl hs), fun seg hs => h seg (.inr hs)⟩
  · rintro ⟨h, h'⟩ seg (hs | hs)
    · exact h seg hs
    · exact h' seg hs

theorem assertPathArg_ok_iff (path : Path) (nonEmpty : Bool) : assertPathArg path nonEmpty = .ok () ↔
      (nonEmpty = true → path ≠ []) ∧ assertSafePath path = .ok () := by
  cases nonEmpty <;> cases path <;> simp [assertPathArg, assertSafePath, bind, Except.bind, throw, throwThe,
    MonadExceptOf.throw]

/-- What validation asks of an operation. -/
theorem assertValidOp_ok_iff (op : Op) :
    assertValidOp op = .ok () ↔ assertSafePath op.path = .ok () ∧ (op.rootAllowed = false → op.path ≠ []) ∧
      ∀ path order, op = .m path order → assertPermutation order = .ok () := by
  cases op with
  | r value => simp [assertValidOp, Op.path, Op.rootAllowed, assertSafePath]
  | m path order =>
    simp only [assertValidOp, bind, Except.bind]
    cases hp : assertPathArg path false with
    | error e =>
      have hsafe : ¬ assertSafePath path = .ok () := by
        intro hs
        have := (assertPathArg_ok_iff path false).mpr ⟨by simp, hs⟩
        rw [hp] at this
        cases this
      simp [Op.path, hsafe]
    | ok u =>
      rw [assertPathArg_ok_iff] at hp
      simp [Op.path, Op.rootAllowed, hp.2]
  | _ => simp [assertValidOp, Op.path, Op.rootAllowed, assertPathArg_ok_iff, and_comm]

end Delta
end Shuvpi
