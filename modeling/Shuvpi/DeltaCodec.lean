import Shuvpi.DeltaPathKey

/-!
# The path-interning codec

`encoder` and `decoder` of `chord/delta`, as functions on the state that the two
closures keep. A wire operation is the source's tuple: the verb, an optional path
reference and the payload. `WireOp.length` is the length of the tuple, and the
decoder tells the short forms apart by it alone, as the source does.

The result is that an encoder and a decoder that have seen the same batches agree:
every numeric id, every omitted path and every definition stands for the path that
the operation carried. A batch that begins with a replacement resets both sides, so
a decoder may start there.
-/
namespace Shuvpi.Delta

inductive PathRef where
  | path (path : Path)
  | id (n : Nat)
  deriving DecidableEq, Repr

inductive WireOp where
  | r (value : Json)
  | s (ref : Option PathRef) (value : Json)
  | d (ref : Option PathRef)
  | a (ref : Option PathRef) (text : JsString)
  | t (ref : Option PathRef) (count : Nat)
  | p (ref : Option PathRef) (index remove : Nat) (items : List Json)
  | m (ref : Option PathRef) (order : List Nat)
  /-- `["#", id, path]` -/
  | define (id : Nat) (path : Path)

inductive Verb where
  | r | s | d | a | t | p | m | define
  deriving DecidableEq, Repr

namespace WireOp

/-- `op[0]` -/
def verb : WireOp → Verb
  | .r _ => .r
  | .s _ _ => .s
  | .d _ => .d
  | .a _ _ => .a
  | .t _ _ => .t
  | .p _ _ _ _ => .p
  | .m _ _ => .m
  | .define _ _ => .define

def ref : WireOp → Option PathRef
  | .r _ => none
  | .s ref _ => ref
  | .d ref => ref
  | .a ref _ => ref
  | .t ref _ => ref
  | .p ref _ _ _ => ref
  | .m ref _ => ref
  | .define _ _ => none

/-- Tuple elements after the verb and the reference. -/
def payloadLength : WireOp → Nat
  | .r _ => 1
  | .s _ _ => 1
  | .d _ => 0
  | .a _ _ => 1
  | .t _ _ => 1
  | .p _ _ _ _ => 3
  | .m _ _ => 1
  | .define _ _ => 2

/-- `op.length` -/
def length (op : WireOp) : Nat := 1 + (if op.ref.isSome then 1 else 0) + op.payloadLength

end WireOp

def okRef : Option PathRef → Except DeltaError Unit
  | some (.path path) => assertSafePath path
  | _ => .ok ()

def assertValidWireOp : WireOp → Except DeltaError Unit
  | .r _ => .ok ()
  | .s ref _ => okRef ref
  | .d ref => okRef ref
  | .a ref _ => okRef ref
  | .t ref _ => okRef ref
  | .p ref _ _ _ => okRef ref
  | .m ref order => do
    okRef ref
    assertPermutation order
  | .define _ path => assertSafePath path

/-- The tuple of an operation with the given reference in place of its path. -/
def Op.wire (op : Op) (ref : Option PathRef) : WireOp :=
  match op with
  | .r value => .r value
  | .s _ value => .s ref value
  | .d _ => .d ref
  | .a _ text => .a ref text
  | .t _ count => .t ref count
  | .p _ index remove items => .p ref index remove items
  | .m _ order => .m ref order

/-- The operation that a tuple stands for once its path is known. -/
def WireOp.withPath (op : WireOp) (path : Path) : Option Op :=
  match op with
  | .r _ => none
  | .s _ value => some (.s path value)
  | .d _ => some (.d path)
  | .a _ text => some (.a path text)
  | .t _ count => some (.t path count)
  | .p _ index remove items => some (.p path index remove items)
  | .m _ order => some (.m path order)
  | .define _ _ => none

/-! ## Encoder -/

structure Encoder where
  seen : List JsString
  ids : List (JsString × Nat)
  nextId : Nat
  /-- Key of the last path in this batch. -/
  previous : Option JsString

def encoder : Encoder := { seen := [], ids := [], nextId := 0, previous := none }

/-- The reference for a path that differs from the previous one, with the definition
that has to precede it. -/
def Encoder.intern (e : Encoder) (path : Path) : Encoder × List WireOp × PathRef :=
  let key := pathKey path
  match e.ids.lookup key with
  | some id => (e, [], .id id)
  | none =>
    if key ∈ e.seen then
      ({ e with ids := (key, e.nextId) :: e.ids, nextId := e.nextId + 1 }, [.define e.nextId path], .id e.nextId)
    else ({ e with seen := key :: e.seen }, [], .path path)

def Encoder.encodeOp (e : Encoder) (op : Op) : Encoder × List WireOp :=
  match op with
  | .r value => (encoder, [.r value])
  | op =>
    if e.previous = some (pathKey op.path) then (e, [op.wire none])
    else
      let (e, definitions, ref) := e.intern op.path
      ({ e with previous := some (pathKey op.path) }, definitions ++ [op.wire (some ref)])

def Encoder.encodeOps (e : Encoder) : List Op → Encoder × List WireOp
  | [] => (e, [])
  | op :: ops =>
    let (e, wire) := e.encodeOp op
    let (e, rest) := e.encodeOps ops
    (e, wire ++ rest)

/-- `encode`: the previous path is scoped to the batch. -/
def Encoder.encode (e : Encoder) (ops : List Op) : Encoder × List WireOp := { e with previous := none }.encodeOps ops

def Encoder.encodeAll (e : Encoder) : List (List Op) → Encoder × List (List WireOp)
  | [] => (e, [])
  | ops :: batches =>
    let (e, wire) := e.encode ops
    let (e, rest) := e.encodeAll batches
    (e, wire :: rest)

/-! ## Decoder -/

structure Decoder where
  paths : List (Nat × Path)
  /-- Last path in this batch. -/
  previous : Option Path

def decoder : Decoder := { paths := [], previous := none }

/-- Whether the tuple omits its reference, by verb and arity. -/
def WireOp.short (op : WireOp) : Bool :=
  (op.verb == .d && op.length == 1) || (op.verb != .d && op.verb != .p && op.length == 2) ||
    (op.verb == .p && op.length == 4)

/-- The path that a tuple other than `r` and `#` is addressed to. -/
def Decoder.resolve (d : Decoder) (op : WireOp) : Except DeltaError Path :=
  if op.short then
    match d.previous with
    | none => .error (.pathError [])
    | some path => .ok path
  else
    match op.ref with
    | some (.id n) =>
      match d.paths.lookup n with
      | none => .error (.pathIdError n)
      | some path => .ok path
    | some (.path path) => .ok path
    | none => .error (.typeError "path is not an array")

def Decoder.decodeOp (d : Decoder) (op : WireOp) : Except DeltaError (Decoder × List Op) := do
  assertValidWireOp op
  match op with
  | .define id path =>
    assertSafePath path
    return ({ d with paths := (id, path) :: d.paths }, [])
  | .r value => return (decoder, [.r value])
  | op =>
    let path ← d.resolve op
    let d := if op.short then d else { d with previous := some path }
    if op.verb ≠ .p ∧ op.verb ≠ .m ∧ path = [] then throw (.pathError path)
    return (d, (op.withPath path).toList)

def Decoder.decodeOps (d : Decoder) : List WireOp → Except DeltaError (Decoder × List Op)
  | [] => .ok (d, [])
  | op :: wire => do
    let (d, out) ← d.decodeOp op
    let (d, rest) ← d.decodeOps wire
    return (d, out ++ rest)

def Decoder.decode (d : Decoder) (wire : List WireOp) : Except DeltaError (Decoder × List Op) :=
  { d with previous := none }.decodeOps wire

def Decoder.decodeAll (d : Decoder) : List (List WireOp) → Except DeltaError (Decoder × List (List Op))
  | [] => .ok (d, [])
  | wire :: batches => do
    let (d, ops) ← d.decode wire
    let (d, rest) ← d.decodeAll batches
    return (d, ops :: rest)

/-! ## Agreement of the two sides -/

/-- The decoder holds, for every id that the encoder may still refer to, the path
whose key has that id, and both remember the same previous path. -/
structure Synced (e : Encoder) (d : Decoder) : Prop where
  ids : ∀ key id, e.ids.lookup key = some id →
    id < e.nextId ∧ ∃ path, d.paths.lookup id = some path ∧ pathKey path = key
  previous : e.previous = d.previous.map pathKey

theorem synced_start : Synced encoder decoder := ⟨by simp [encoder], rfl⟩

variable {e : Encoder} {d : Decoder}

theorem Synced.newBatch (h : Synced e d) :
    Synced { e with previous := none } { d with previous := none } := ⟨h.ids, rfl⟩

theorem Synced.setPrevious (h : Synced e d) (path : Path) :
    Synced { e with previous := some (pathKey path) } { d with previous := some path } := ⟨h.ids, rfl⟩

/-- A short form is exactly a tuple without a reference. -/
theorem short_iff (op : WireOp) (hr : op.verb ≠ .r) (hd : op.verb ≠ .define) : op.short = op.ref.isNone := by
  cases op with
  | r value => exact absurd rfl hr
  | define id path => exact absurd rfl hd
  | s ref value => cases ref <;> rfl
  | d ref => cases ref <;> rfl
  | a ref text => cases ref <;> rfl
  | t ref count => cases ref <;> rfl
  | p ref index remove items => cases ref <;> rfl
  | m ref order => cases ref <;> rfl

section WireForms

variable {op : Op} (hop : op.isReplace = false)
include hop

variable (ref : Option PathRef)

theorem wire_ref : (op.wire ref).ref = ref := by
  cases op <;> first | rfl | cases hop

theorem wire_withPath : (op.wire ref).withPath op.path = some op := by
  cases op <;> first | rfl | cases hop

theorem wire_verb : (op.wire ref).verb ≠ .r ∧ (op.wire ref).verb ≠ .define := by
  cases op with
  | r value => cases hop
  | _ => constructor <;> intro h <;> cases h

theorem wire_short : (op.wire ref).short = ref.isNone := by
  rw [short_iff _ (wire_verb hop ref).1 (wire_verb hop ref).2, wire_ref hop]

/-- A tuple built from a valid operation passes the wire grammar as soon as its
reference does, and never meets the empty-path check. -/
theorem wire_valid (h : assertValidOp op = .ok ()) (href : okRef ref = .ok ()) :
    assertValidWireOp (op.wire ref) = .ok () ∧
      ¬ ((op.wire ref).verb ≠ .p ∧ (op.wire ref).verb ≠ .m ∧ op.path = []) := by
  obtain ⟨_, hroot, hperm⟩ := (assertValidOp_ok_iff op).mp h
  cases op with
  | r value => cases hop
  | p path index remove items => exact ⟨href, fun h => h.1 rfl⟩
  | m path order =>
    refine ⟨?_, fun h => h.2.1 rfl⟩
    simp only [Op.wire, assertValidWireOp, href, bind, Except.bind]
    exact hperm path order rfl
  | _ => exact ⟨href, fun h => hroot rfl h.2.2⟩

/-- Decoding a tuple whose path the decoder finds. -/
theorem decodeOp_wire (d : Decoder) (ref : Option PathRef) (h : assertValidOp op = .ok ())
    (href : okRef ref = .ok ()) (hres : d.resolve (op.wire ref) = .ok op.path) :
    d.decodeOp (op.wire ref) =
      .ok (if ref.isNone then d else { d with previous := some op.path }, [op]) := by
  obtain ⟨hval, hempty⟩ := wire_valid hop ref h href
  have hshort := wire_short hop ref
  have hwith := wire_withPath hop ref
  cases op with
  | r value => cases hop
  | _ =>
    simp only [Op.wire] at hval hempty hshort hwith hres ⊢
    simp only [Decoder.decodeOp, hval, hres, hshort, hwith, bind, Except.bind, pure, Except.pure, Option.toList]
    rw [if_neg hempty]

end WireForms

/-- The path that the decoder takes a tuple to stand for; a definition carries its own. -/
def Decoder.pathOf (d : Decoder) : WireOp → Except DeltaError Path
  | .define _ path => .ok path
  | op => d.resolve op

variable {op : Op}

theorem pathOf_wire (hop : op.isReplace = false) (d : Decoder) (ref : Option PathRef) :
    d.pathOf (op.wire ref) = d.resolve (op.wire ref) := by
  cases op with
  | r value => cases hop
  | _ => rfl

/-- What the wire operations of one operation must do for the decoder: together they
give the operation back, and each of them stands for its path. -/
structure Carries (e' : Encoder) (d : Decoder) (wire : List WireOp) (op : Op) : Prop where
  decoded : ∃ d', d.decodeOps wire = .ok (d', [op]) ∧ Synced e' d'
  resolved : op.isReplace = false → ∀ before w after, wire = before ++ w :: after →
    ∃ d' out, d.decodeOps before = .ok (d', out) ∧ d'.pathOf w = .ok op.path

variable {d d' d'' : Decoder} {out rest : List Op}

theorem decodeOps_cons {w : WireOp} {wire : List WireOp}
    (h : d.decodeOp w = .ok (d', out)) (h' : d'.decodeOps wire = .ok (d'', rest)) :
    d.decodeOps (w :: wire) = .ok (d'', out ++ rest) := by
  simp only [Decoder.decodeOps, h, h', bind, Except.bind, pure, Except.pure]

theorem decodeOps_append {wire wire' : List WireOp}
    (h : d.decodeOps wire = .ok (d', out)) (h' : d'.decodeOps wire' = .ok (d'', rest)) :
    d.decodeOps (wire ++ wire') = .ok (d'', out ++ rest) := by
  induction wire generalizing d out with
  | nil => cases h; exact h'
  | cons w wire ih =>
    simp only [Decoder.decodeOps, bind, Except.bind] at h
    obtain ⟨⟨d₁, out₁⟩, hw, h⟩ := bind_ok.mp h
    obtain ⟨⟨d₂, out₂⟩, hrest, h⟩ := bind_ok.mp h
    cases h
    rw [List.cons_append, List.append_assoc]
    exact decodeOps_cons hw (ih hrest)

/-- One tuple whose path the decoder finds carries its operation. -/
theorem carries_single {e' : Encoder} {ref : Option PathRef} (hop : op.isReplace = false)
    (h : assertValidOp op = .ok ()) (href : okRef ref = .ok ()) (hres : d.resolve (op.wire ref) = .ok op.path)
    (hsync : Synced e' (if ref.isNone then d else { d with previous := some op.path })) :
    Carries e' d [op.wire ref] op := by
  constructor
  · exact ⟨_, decodeOps_cons (decodeOp_wire hop d ref h href hres) rfl, hsync⟩
  · intro _ before w after hsplit
    cases before with
    | nil =>
      cases hsplit
      exact ⟨d, [], rfl, by rw [pathOf_wire hop, hres]⟩
    | cons w' before => simp at hsplit

/-- A definition, then a tuple that refers to it. -/
theorem carries_defined {e' : Encoder} {id : Nat} (hop : op.isReplace = false)
    (h : assertValidOp op = .ok ())
    (hsync : Synced e' { paths := (id, op.path) :: d.paths, previous := some op.path }) :
    Carries e' d [.define id op.path, op.wire (some (.id id))] op := by
  have hsafe := ((assertValidOp_ok_iff op).mp h).1
  have hdef : d.decodeOp (.define id op.path) = .ok ({ d with paths := (id, op.path) :: d.paths }, []) := by
    simp only [Decoder.decodeOp, assertValidWireOp, hsafe, bind, Except.bind, pure, Except.pure]
  have hres : { d with paths := (id, op.path) :: d.paths : Decoder }.resolve (op.wire (some (.id id))) =
      .ok op.path := by
    simp [Decoder.resolve, wire_short hop, wire_ref hop]
  have href : okRef (some (.id id)) = .ok () := rfl
  have hrest := carries_single hop h href hres hsync
  constructor
  · obtain ⟨d', hd', hs⟩ := hrest.decoded
    exact ⟨d', decodeOps_cons hdef hd', hs⟩
  · intro _ before w after hsplit
    cases before with
    | nil =>
      cases hsplit
      exact ⟨d, [], rfl, rfl⟩
    | cons w' before =>
      rw [List.cons_append, List.cons.injEq] at hsplit
      obtain ⟨rfl, hsplit⟩ := hsplit
      obtain ⟨d', out, hd', hp⟩ := hrest.resolved hop before w after hsplit
      exact ⟨d', out, decodeOps_cons hdef hd', hp⟩

/-- Step: the wire operations of a valid operation carry it, and the two sides agree
again afterwards. -/
theorem encodeOp_carries (hsync : Synced e d) (op : Op) (h : assertValidOp op = .ok ()) :
    Carries (e.encodeOp op).1 d (e.encodeOp op).2 op := by
  cases hrep : op.isReplace with
  | true =>
    cases op with
    | r value =>
      constructor
      · exact ⟨decoder, rfl, synced_start⟩
      · intro hf
        cases hf
    | _ => cases hrep
  | false =>
    have henc : e.encodeOp op =
        if e.previous = some (pathKey op.path) then (e, [op.wire none])
        else ({ (e.intern op.path).1 with previous := some (pathKey op.path) },
          (e.intern op.path).2.1 ++ [op.wire (some (e.intern op.path).2.2)]) := by
      cases op <;> first | rfl | cases hrep
    have hsafe := ((assertValidOp_ok_iff op).mp h).1
    rw [henc]
    by_cases hprev : e.previous = some (pathKey op.path)
    · -- the previous path again: the key fixes the path that the decoder remembers
      rw [if_pos hprev]
      apply carries_single hrep h rfl _ hsync
      have hd := hsync.previous
      rw [hprev] at hd
      obtain ⟨path, hpath, hkey⟩ := Option.map_eq_some_iff.mp hd.symm
      simp [Decoder.resolve, wire_short hrep, hpath, pathKey_injective hkey]
    · rw [if_neg hprev, Encoder.intern]
      cases hid : e.ids.lookup (pathKey op.path) with
      | some id =>
        obtain ⟨_, path, hpath, hkey⟩ := hsync.ids _ _ hid
        rw [pathKey_injective hkey] at hpath
        apply carries_single hrep h rfl _ (hsync.setPrevious op.path)
        simp [Decoder.resolve, wire_short hrep, wire_ref hrep, hpath]
      | none =>
        dsimp only
        split
        · apply carries_defined hrep h
          constructor
          · intro key id hlookup
            rw [List.lookup_cons] at hlookup ⊢
            by_cases hk : key = pathKey op.path
            · simp only [hk, beq_self_eq_true, Option.some.injEq] at hlookup
              subst hlookup
              exact ⟨Nat.lt_succ_self _, op.path, by simp, hk.symm⟩
            · have hk' : (key == pathKey op.path) = false := by simpa using hk
              simp only [hk'] at hlookup
              obtain ⟨hlt, path, hpath, hkey⟩ := hsync.ids key id hlookup
              have hne : (id == e.nextId) = false := by simp; omega
              exact ⟨Nat.lt_succ_of_lt hlt, path, by simp [hne, hpath], hkey⟩
          · rfl
        · have href : okRef (some (.path op.path)) = .ok () := hsafe
          refine carries_single hrep h href ?_ ⟨hsync.ids, rfl⟩
          simp [Decoder.resolve, wire_short hrep, wire_ref hrep]

/-! ## Batches and streams -/

theorem encodeOps_carries (hsync : Synced e d) (ops : List Op)
    (h : ∀ op ∈ ops, assertValidOp op = .ok ()) :
    ∃ d', d.decodeOps (e.encodeOps ops).2 = .ok (d', ops) ∧ Synced (e.encodeOps ops).1 d' := by
  induction ops generalizing e d with
  | nil => exact ⟨d, rfl, hsync⟩
  | cons op ops ih =>
    obtain ⟨d', hd', hs'⟩ := (encodeOp_carries hsync op (h op List.mem_cons_self)).decoded
    obtain ⟨d'', hd'', hs''⟩ := ih hs' fun op' hop' => h op' (List.mem_cons_of_mem _ hop')
    exact ⟨d'', decodeOps_append hd' hd'', hs''⟩

theorem encodeAll_carries (hsync : Synced e d) (batches : List (List Op))
    (h : ∀ ops ∈ batches, ∀ op ∈ ops, assertValidOp op = .ok ()) :
    ∃ d', d.decodeAll (e.encodeAll batches).2 = .ok (d', batches) ∧ Synced (e.encodeAll batches).1 d' := by
  induction batches generalizing e d with
  | nil => exact ⟨d, rfl, hsync⟩
  | cons ops batches ih =>
    obtain ⟨d', hd', hs'⟩ := encodeOps_carries hsync.newBatch ops (h ops List.mem_cons_self)
    obtain ⟨d'', hd'', hs''⟩ := ih hs' fun ops' hops' => h ops' (List.mem_cons_of_mem _ hops')
    refine ⟨d'', ?_, hs''⟩
    simp only [Encoder.encodeAll, Decoder.decodeAll, Encoder.encode, Decoder.decode] at hd' hd'' ⊢
    simp only [hd', hd'', bind, Except.bind, pure, Except.pure]

/-- From a batch that begins with a replacement on, an encoder writes what a new one
would write. -/
theorem encodeAll_base (e : Encoder) (ops : List Op) (batches : List (List Op)) (hbase : isBase ops = true) :
    e.encodeAll (ops :: batches) = encoder.encodeAll (ops :: batches) := by
  cases ops with
  | nil => cases hbase
  | cons op ops =>
    cases op with
    | r value => rfl
    | _ => cases hbase

theorem encodeAll_append (e : Encoder) (batches batches' : List (List Op)) : e.encodeAll (batches ++ batches') =
      (((e.encodeAll batches).1.encodeAll batches').1,
        (e.encodeAll batches).2 ++ ((e.encodeAll batches).1.encodeAll batches').2) := by
  induction batches generalizing e with
  | nil => rfl
  | cons ops batches ih => simp only [List.cons_append, Encoder.encodeAll, ih]

variable (batches : List (List Op))

theorem encodeAll_length (e : Encoder) : (e.encodeAll batches).2.length = batches.length := by
  induction batches generalizing e with
  | nil => rfl
  | cons ops batches ih => simp only [Encoder.encodeAll, List.length_cons, ih]

/-- The places where a decoder may start: the first batch, and every batch that begins
with a replacement. -/
def RecoveryPoint (batches : List (List Op)) (k : Nat) : Prop :=
  k = 0 ∨ ∃ ops, batches[k]? = some ops ∧ isBase ops = true

/-- What is on the wire from a recovery point on is what a new encoder writes. -/
theorem encodeAll_drop (k : Nat) (hk : RecoveryPoint batches k) :
    (encoder.encodeAll batches).2.drop k = (encoder.encodeAll (batches.drop k)).2 := by
  rcases hk with rfl | ⟨ops, hops, hbase⟩
  · rfl
  · obtain ⟨hlt, hget⟩ := List.getElem?_eq_some_iff.mp hops
    have hlen : (batches.take k).length = k := by rw [List.length_take]; omega
    conv_lhs => rw [← List.take_append_drop k batches, encodeAll_append]
    rw [List.drop_append_of_le_length (by rw [encodeAll_length, hlen]),
      List.drop_eq_nil_of_le (by rw [encodeAll_length, hlen]), List.nil_append, List.drop_eq_getElem_cons hlt, hget,
      encodeAll_base _ _ _ hbase]

/-- The encoder when it comes to an operation: after whole batches and the first
operations of the next one, whose tuples are returned. -/
def Encoder.atOp (e : Encoder) (before : List (List Op)) (ops : List Op) : Encoder × List WireOp :=
  (e.encodeAll before).1.encode ops

/-- The decoder when it comes to a tuple. -/
def Decoder.atTuple (d : Decoder) (before : List (List WireOp)) (wire : List WireOp) : Except DeltaError Decoder := do
  let (d, _) ← d.decodeAll before
  let (d, _) ← d.decode wire
  return d

theorem atTuple_pathOf (before : List (List Op)) (ops : List Op) (op : Op)
    (hbef : ∀ ops' ∈ before, ∀ op' ∈ ops', assertValidOp op' = .ok ())
    (hops : ∀ op' ∈ ops, assertValidOp op' = .ok ()) (hop : assertValidOp op = .ok ()) (hrep : op.isReplace = false)
    (pre : List WireOp) (w : WireOp) (post : List WireOp)
    (hsplit : ((encoder.atOp before ops).1.encodeOp op).2 = pre ++ w :: post) :
    ∃ d, decoder.atTuple (encoder.encodeAll before).2 ((encoder.atOp before ops).2 ++ pre) = .ok d ∧
      d.pathOf w = .ok op.path := by
  obtain ⟨d₁, hd₁, hs₁⟩ := encodeAll_carries synced_start before hbef
  obtain ⟨d₂, hd₂, hs₂⟩ := encodeOps_carries hs₁.newBatch ops hops
  obtain ⟨d₃, out, hd₃, hp⟩ := (encodeOp_carries hs₂ op hop).resolved hrep pre w post hsplit
  refine ⟨d₃, ?_, hp⟩
  have hd := decodeOps_append hd₂ hd₃
  simp only [Decoder.atTuple, Decoder.decode, Encoder.atOp, Encoder.encode, hd₁, hd, bind, Except.bind, pure,
    Except.pure]

/-- From the beginning of a stream, and from every batch of it that begins with a
replacement, a new decoder reads back exactly the batches that were written, and
takes every tuple to stand for the path that its operation carried. -/
theorem decodeAll_encodeAll (batches : List (List Op))
    (h : ∀ ops ∈ batches, ∀ op ∈ ops, assertValidOp op = .ok ()) (k : Nat) (hk : RecoveryPoint batches k) :
    (∃ d, decoder.decodeAll ((encoder.encodeAll batches).2.drop k) = .ok (d, batches.drop k)) ∧
      (encoder.encodeAll batches).2.drop k = (encoder.encodeAll (batches.drop k)).2 ∧
      ∀ before ops op rest after, batches.drop k = before ++ (ops ++ op :: rest) :: after → op.isReplace = false →
        ∀ pre w post, ((encoder.atOp before ops).1.encodeOp op).2 = pre ++ w :: post →
          ∃ d, decoder.atTuple (encoder.encodeAll before).2 ((encoder.atOp before ops).2 ++ pre) = .ok d ∧
            d.pathOf w = .ok op.path := by
  have hvalid : ∀ ops ∈ batches.drop k, ∀ op ∈ ops, assertValidOp op = .ok () := by
    intro ops hops
    exact h ops (List.mem_of_mem_drop hops)
  have hdrop := encodeAll_drop batches k hk
  refine ⟨?_, hdrop, ?_⟩
  · obtain ⟨d, hd, _⟩ := encodeAll_carries synced_start (batches.drop k) hvalid
    exact ⟨d, by rw [hdrop, hd]⟩
  · intro before ops op rest after hsplit hrep pre w post hwire
    rw [hsplit] at hvalid
    have hbatch := hvalid (ops ++ op :: rest) (by simp)
    apply atTuple_pathOf before ops op _ _ (hbatch op (by simp)) hrep pre w post hwire
    · intro ops' hops'
      exact hvalid ops' (List.mem_append_left _ hops')
    · intro op' hop'
      exact hbatch op' (List.mem_append_left _ hop')

/-- A stream that defines an id, omits a path and refers to the id again after a base. -/
def sampleBatches : List (List Op) :=
  [[.r .null, .s [.key [97]] .null, .d [.key [98]], .a [.key [97]] [120], .t [.key [97]] 1],
    [.r (.array []), .p [] 0 0 [.null], .m [] [0], .s [.index 0] .null, .p [] 1 0 [.null]],
    [.d [.key [97]], .p [] 0 1 []]]

theorem decodeAll_encodeAll_sample :
    (∀ ops ∈ sampleBatches, ∀ op ∈ ops, assertValidOp op = .ok ()) ∧ RecoveryPoint sampleBatches 1 ∧
      ∃ d, decoder.decodeAll ((encoder.encodeAll sampleBatches).2.drop 1) = .ok (d, sampleBatches.drop 1) := by
  have hvalid : ∀ ops ∈ sampleBatches, ∀ op ∈ ops, assertValidOp op = .ok () := by decide
  have hstart : RecoveryPoint sampleBatches 1 := .inr ⟨_, rfl, rfl⟩
  exact ⟨hvalid, hstart, (decodeAll_encodeAll sampleBatches hvalid 1 hstart).1⟩

end Shuvpi.Delta
