import Shuvpi.DeltaApply

/-!
# What a JSON value says

The document of a JSON value forgets the order of object keys and the sign of zero and
nothing else: two values are JSON-equal when they have the same document. An operation
has a meaning on documents, an edit at its path that is defined only where the
operation is meant to be used: an element is set only if it exists, a splice stays
inside its array, an index never names a property. Where this meaning is defined,
`apply` and `applyImmutable` succeed and their result has that document.
-/
namespace Shuvpi

/-- The number without the sign of zero. -/
def JsNumber.unsigned (x : JsNumber) : JsNumber := if x.isNegZero then JsNumber.ofInt 0 else x

inductive Atom where
  | null
  | boolean (b : Bool)
  | number (x : JsNumber)
  | string (s : JsString)
  deriving DecidableEq, Repr

abbrev Doc := DataTree JsString Atom

namespace Json

mutual
def doc : Json → Doc
  | .null => .leaf .null
  | .boolean b => .leaf (.boolean b)
  | .number x => .leaf (.number x.unsigned)
  | .string s => .leaf (.string s)
  | .array items => .seq (itemDocs items)
  | .object props => .record (propDocs props)

def itemDocs : List Json → List Doc
  | [] => []
  | value :: items => doc value :: itemDocs items

def propDocs : List (JsString × Json) → JsString → Option Doc
  | [], _ => none
  | (key, value) :: props, name => if key = name then some (doc value) else propDocs props name
end

/-- JSON equality: key order and the sign of zero do not matter. -/
def Same (a b : Json) : Prop := a.doc = b.doc

theorem itemDocs_eq (items : List Json) : itemDocs items = items.map doc := by
  induction items with
  | nil => rfl
  | cons value items ih => rw [itemDocs, List.map_cons, ih]

variable (props : List (JsString × Json))

theorem propDocs_eq (name : JsString) : propDocs props name = (JsProps.get? props name).map doc := by
  induction props with
  | nil => rfl
  | cons p props ih =>
    rw [propDocs, JsProps.get?_cons, ih]
    split <;> rfl

theorem doc_array (items : List Json) : (Json.array items).doc = .seq (items.map doc) := by
  rw [doc, itemDocs_eq]

theorem doc_object : (Json.object props).doc = .record fun name => (JsProps.get? props name).map doc := by
  rw [doc]
  congr 1
  funext name
  exact propDocs_eq props name

theorem doc_define (key : JsString) (value : Json) : (Json.object (JsProps.define props key value)).doc =
      .record (Function.update (fun name => (JsProps.get? props name).map doc) key (some value.doc)) := by
  rw [doc_object]
  congr 1
  funext name
  rw [JsProps.get?_define]
  by_cases h : name = key
  · subst h
    simp
  · rw [Function.update_of_ne h]
    simp [Ne.symm h]

theorem doc_erase (key : JsString) : (Json.object (JsProps.erase props key)).doc =
      .record (Function.update (fun name => (JsProps.get? props name).map doc) key none) := by
  rw [doc_object]
  congr 1
  funext name
  rw [JsProps.get?_erase]
  by_cases h : name = key
  · subst h
    simp
  · rw [Function.update_of_ne h]
    simp [Ne.symm h]

end Json

namespace Delta

open DataTree

/-! ## The meaning of an operation -/

def stringEdit (g : JsString → JsString) : Edit JsString Atom
  | some (.leaf (.string s)) => some (some (.leaf (.string (g s))))
  | _ => none

def spliceEdit (index remove : Nat) (items : List Doc) : Edit JsString Atom
  | some (.seq target) =>
    if index + remove ≤ target.length then some (some (.seq (splice target index remove items))) else none
  | _ => none

def orderEdit (order : List Nat) : Edit JsString Atom
  | some (.seq previous) =>
    if previous.length = order.length then
      some (some (.seq (order.map fun j => previous.getD j (.leaf .null))))
    else none
  | _ => none

/-- What an operation does to the contents of its location. -/
def Op.contentEdit : Op → Edit JsString Atom
  | .r value => overwrite (some value.doc)
  | .s _ value => overwrite (some value.doc)
  | .d _ => overwrite none
  | .a _ text => stringEdit fun s => s ++ text
  | .t _ count => stringEdit fun s => s.drop count
  | .p _ index remove items => spliceEdit index remove (items.map Json.doc)
  | .m _ order => orderEdit order

def Op.edit (op : Op) : Edit JsString Atom := alter op.path op.contentEdit

def edits : List Op → Edit JsString Atom
  | [] => some
  | op :: ops => andThen op.edit (edits ops)

theorem edits_append (ops ops' : List Op) : edits (ops ++ ops') = andThen (edits ops) (edits ops') := by
  induction ops with
  | nil => rfl
  | cons op ops ih =>
    funext x
    simp only [List.cons_append, edits, andThen, ih]
    cases op.edit x <;> rfl

theorem edits_append_some {ops ops' : List Op} {x y z : Option Doc} (h : edits ops x = some y)
    (h' : edits ops' y = some z) : edits (ops ++ ops') x = some z := by
  rw [edits_append]
  simp only [andThen, h, Option.bind_some, h']

theorem edits_single (op : Op) (x : Option Doc) : edits [op] x = op.edit x := by
  simp only [edits, andThen]
  cases op.edit x <;> rfl

/-! ## Application follows the meaning -/

theorem getD_doc (previous : List Json) (j : Nat) :
    (previous.map Json.doc).getD j (.leaf .null) = (previous.getD j .null).doc := by
  simp only [List.getD_eq_getElem?_getD, List.getElem?_map]
  cases previous[j]? <;> rfl

theorem splice_map {β γ : Type} (f : β → γ) (target : List β) (index remove : Nat) (items : List β) :
    (splice target index remove items).map f = splice (target.map f) index remove (items.map f) := by
  simp only [splice, List.map_append, List.map_take, List.map_drop]

/-- A change of one container, in JSON and in documents. -/
def Follows (f : Json → Except DeltaError Json) (F : Edit JsString Atom) : Prop :=
  F none = none ∧ ∀ node z, F (some (Json.doc node)) = some z →
    isObj node = true ∧ ∃ node', f node = .ok node' ∧ z = some node'.doc

variable {f : Json → Except DeltaError Json}

theorem modifyAt_follows {F : Edit JsString Atom} (hF : Follows f F)
    (whole path : Path) (root : Json) (y : Option Doc) (h : alter path F (some root.doc) = some y) :
    ∃ root', modifyAt whole f path root = .ok root' ∧ y = some root'.doc := by
  induction path generalizing root y with
  | nil =>
    obtain ⟨hobj, root', hf, rfl⟩ := hF.2 root y h
    exact ⟨root', by rw [modifyAt, if_pos hobj, hf], rfl⟩
  | cons seg path ih =>
    have hnone : alter path F none = none := by
      cases path with
      | nil => exact hF.1
      | cons s path => rfl
    obtain ⟨t, t', ht, rfl, hc⟩ := alter_cons_some.mp h
    cases ht
    rcases alterChild_some hc with ⟨items, n, item, item', hroot, rfl, hn, hf, rfl⟩ |
      ⟨fields, k, content, hroot, rfl, hf, rfl⟩
    · cases root with
      | array elems =>
        rw [Json.doc_array, DataTree.seq.injEq] at hroot
        subst hroot
        rw [List.getElem?_map, Option.map_eq_some_iff] at hn
        obtain ⟨child, hchild, rfl⟩ := hn
        obtain ⟨child', hm, he⟩ := ih child _ hf
        cases he
        refine ⟨.array (elems.set n child'), ?_, ?_⟩
        · simp only [modifyAt, stepInto, child?, hchild, bind, Except.bind, hm, pure, Except.pure, setChild]
        · rw [Json.doc_array, List.map_set]
      | object props => rw [Json.doc_object] at hroot; cases hroot
      | _ => cases hroot
    · cases root with
      | object props =>
        rw [Json.doc_object, DataTree.record.injEq] at hroot
        subst hroot
        dsimp only at hf
        cases hget : JsProps.get? props k with
        | none =>
          rw [hget, Option.map_none, hnone] at hf
          cases hf
        | some child =>
          rw [hget, Option.map_some] at hf
          obtain ⟨child', hm, rfl⟩ := ih child _ hf
          refine ⟨.object (JsProps.define props k child'), ?_, by rw [Json.doc_define]⟩
          simp only [modifyAt, stepInto, child?, Seg.name, hget, bind, Except.bind, hm, pure, Except.pure, setChild]
      | array elems => rw [Json.doc_array] at hroot; cases hroot
      | _ => cases hroot

variable (path : Path)

theorem applySplice_follows (index remove : Nat) (items : List Json) :
    Follows (applySplice path index remove items) (spliceEdit index remove (items.map Json.doc)) := by
  refine ⟨rfl, ?_⟩
  intro node z h
  cases node with
  | array target =>
    rw [Json.doc_array, spliceEdit] at h
    split at h
    · cases h
      refine ⟨rfl, _, rfl, ?_⟩
      rw [spliceItems_eq, Json.doc_array, splice_map]
    · cases h
  | object props => rw [Json.doc_object] at h; cases h
  | _ => cases h

theorem applyOrder_follows (order : List Nat) : Follows (applyOrder path order) (orderEdit order) := by
  refine ⟨rfl, ?_⟩
  intro node z h
  cases node with
  | array previous =>
    rw [Json.doc_array, orderEdit, List.length_map] at h
    split at h
    · rename_i hlen
      cases h
      refine ⟨rfl, _, by rw [applyOrder, if_pos hlen], ?_⟩
      rw [Json.doc_array, List.map_map]
      congr 2
      apply List.map_congr_left
      intro j _
      exact getD_doc previous j
    · cases h
  | object props => rw [Json.doc_object] at h; cases h
  | _ => cases h

theorem child_doc (node : Json) (key : Seg) (t : Doc) (h : node.doc.child key = some t) :
    ∃ value, read node key = some value ∧ value.doc = t := by
  cases node with
  | array items =>
    cases key with
    | key k => rw [Json.doc_array] at h; cases h
    | index n =>
      rw [Json.doc_array, DataTree.child, List.getElem?_map, Option.map_eq_some_iff] at h
      exact h
  | object props =>
    cases key with
    | key k =>
      rw [Json.doc_object, DataTree.child, Option.map_eq_some_iff] at h
      exact h
    | index n => rw [Json.doc_object] at h; cases h
  | _ => cases h

variable {key : Seg}

variable {node next : Json}

/-- Setting a child of a container. -/
theorem write_follows {value : Json} {t : Doc}
    (h : alterChild key (overwrite (some value.doc)) node.doc = some t) :
    isObj node = true ∧ assertIndexInRange node key = .ok () ∧ (write node key value).doc = t := by
  rcases alterChild_some h with ⟨items, n, item, item', hnode, rfl, hn, hf, rfl⟩ |
    ⟨fields, k, content, hnode, rfl, hf, rfl⟩
  · cases hf
    cases node with
    | array elems =>
      rw [Json.doc_array, DataTree.seq.injEq] at hnode
      subst hnode
      have hlt : n < elems.length := by
        have := (List.getElem?_eq_some_iff.mp hn).1
        rwa [List.length_map] at this
      refine ⟨rfl, ?_, ?_⟩
      · rw [assertIndexInRange, if_neg (by omega)]
      · rw [write, if_pos hlt, Json.doc_array, List.map_set]
    | object props => rw [Json.doc_object] at hnode; cases hnode
    | _ => cases hnode
  · cases hf
    cases node with
    | object props =>
      rw [Json.doc_object, DataTree.record.injEq] at hnode
      subst hnode
      exact ⟨rfl, rfl, by rw [← Json.doc_define]; rfl⟩
    | array elems => rw [Json.doc_array] at hnode; cases hnode
    | _ => cases hnode

/-- Rewriting a string child of a container. -/
theorem writeString_follows {g : JsString → JsString} {t : Doc}
    (h : alterChild key (stringEdit g) node.doc = some t) :
    ∃ s, readString path node key = .ok s ∧
      alterChild key (overwrite (some (Json.string (g s)).doc)) node.doc = some t := by
  have hchild := alterChild_child h
  cases hc : node.doc.child key with
  | none => rw [hc] at hchild; cases hchild
  | some c =>
    obtain ⟨value, hread, rfl⟩ := child_doc node key c hc
    have hstring : ∃ s, value = .string s := by
      rw [hc] at hchild
      cases value with
      | string s => exact ⟨s, rfl⟩
      | array items => rw [Json.doc_array] at hchild; cases hchild
      | object props => rw [Json.doc_object] at hchild; cases hchild
      | _ => cases hchild
    obtain ⟨s, rfl⟩ := hstring
    refine ⟨s, by rw [readString, hread], ?_⟩
    apply alterChild_congr h
    intro y hy
    rw [hc] at hy
    cases hy
    rfl

/-- What `s`, `d`, `a` and `t` ask of the container they write to. -/
theorem applyToParent_follows (op : Op) (key : Seg) (hop : op.rootAllowed = false) :
    Follows (applyToParent op key) (alter [key] op.contentEdit) := by
  refine ⟨rfl, ?_⟩
  intro node z h
  obtain ⟨t, t', ht, rfl, hc⟩ := alter_cons_some.mp h
  cases ht
  simp only [alter_nil] at hc
  cases op with
  | r | p | m => cases hop
  | s path value =>
    obtain ⟨hobj, hrange, hw⟩ := write_follows hc
    refine ⟨hobj, write node key value, ?_, by rw [hw]⟩
    simp only [applyToParent, hrange, bind, Except.bind, pure, Except.pure]
  | d path =>
    rcases alterChild_some hc with ⟨items, n, item, item', hnode, rfl, hn, hf, rfl⟩ |
      ⟨fields, k, content, hnode, rfl, hf, rfl⟩
    · cases hf
    · cases hf
      cases node with
      | object props =>
        rw [Json.doc_object, DataTree.record.injEq] at hnode
        subst hnode
        exact ⟨rfl, _, rfl, by rw [← Json.doc_erase]; rfl⟩
      | array elems => rw [Json.doc_array] at hnode; cases hnode
      | _ => cases hnode
  | a path text =>
    obtain ⟨s, hread, hset⟩ := writeString_follows path hc
    obtain ⟨hobj, hrange, hw⟩ := write_follows hset
    refine ⟨hobj, write node key (.string (s ++ text)), ?_, by rw [hw]⟩
    simp only [applyToParent, hrange, hread, bind, Except.bind, pure, Except.pure]
  | t path count =>
    obtain ⟨s, hread, hset⟩ := writeString_follows path hc
    obtain ⟨hobj, hrange, hw⟩ := write_follows hset
    refine ⟨hobj, write node key (.string (s.drop count)), ?_, by rw [hw]⟩
    simp only [applyToParent, hrange, hread, bind, Except.bind, pure, Except.pure]

variable {op : Op}

theorem applyOp_parent (hop : op.rootAllowed = false) (hval : assertValidOp op = .ok ()) {P : Path}
    (hpath : op.path = P ++ [key]) (root : Json) :
    applyOp (some root) op = modifyAt P (applyToParent op key) P root := by
  have hlast : op.path.getLast? = some key := by rw [hpath, List.getLast?_concat]
  have hinit : op.path.dropLast = P := by rw [hpath, List.dropLast_concat]
  cases op with
  | r | p | m => cases hop
  | _ => simp only [applyOp, hval, bind, Except.bind, hlast, hinit, orUndefined]

variable {y : Option Doc}

/-- Below the root there must be something to edit. -/
theorem edit_root (h : op.edit none = some y) : op.isReplace = true ∨
    op.rootAllowed = false ∧ op.path = [] := by
  cases hp : op.path with
  | cons s P =>
    rw [Op.edit, hp] at h
    cases h
  | nil =>
    rw [Op.edit, hp, alter_nil] at h
    cases op with
    | r value => exact .inl rfl
    | p | m => cases h
    | _ => exact .inr ⟨rfl, rfl⟩

variable {root : Option Json}

/-- Where the meaning of a valid operation is defined, applying it succeeds with that
meaning. -/
theorem applyOp_follows (hval : assertValidOp op = .ok ())
    (h : op.edit (root.map Json.doc) = some y) : ∃ next, applyOp root op = .ok next ∧ y = some next.doc := by
  have hne := ((assertValidOp_ok_iff op).mp hval).2.1
  cases hrep : op.isReplace with
  | true =>
    cases op with
    | r value => cases h; exact ⟨value, rfl, rfl⟩
    | _ => cases hrep
  | false =>
    cases root with
    | none =>
      rcases edit_root h with hr | ⟨hroot, hnil⟩
      · rw [hrep] at hr
        cases hr
      · exact absurd hnil (hne hroot)
    | some j =>
      cases hroot : op.rootAllowed with
      | false =>
        obtain ⟨P, key, hpath⟩ : ∃ P key, op.path = P ++ [key] :=
          ⟨_, _, (List.dropLast_concat_getLast (hne hroot)).symm⟩
        rw [Op.edit, hpath, alter_append] at h
        obtain ⟨next, hm, hy⟩ := modifyAt_follows (applyToParent_follows op key hroot) P P j y h
        exact ⟨next, by rw [applyOp_parent hroot hval hpath, hm], hy⟩
      | true =>
        cases op with
        | r value => cases hrep
        | p path index remove items =>
          obtain ⟨next, hm, hy⟩ := modifyAt_follows (applySplice_follows path index remove items) path path j y h
          exact ⟨next, by simp only [applyOp, hval, orUndefined, bind, Except.bind, hm], hy⟩
        | m path order =>
          obtain ⟨next, hm, hy⟩ := modifyAt_follows (applyOrder_follows path order) path path j y h
          exact ⟨next, by simp only [applyOp, hval, orUndefined, bind, Except.bind, hm], hy⟩
        | _ => cases hroot

/-! ## Immutable application -/

/-- The containers on the way to an edit can be copied. -/
theorem copyContainers_ok {whole path : Path} {root : Json} {root' : Json}
    (h : modifyAt whole f path root = .ok root') : copyContainers whole path root = .ok () := by
  induction path generalizing root root' with
  | nil =>
    rw [modifyAt] at h
    split at h
    · rename_i hobj
      rw [copyContainers, if_pos hobj]
    · cases h
  | cons seg path ih =>
    simp only [modifyAt, bind, Except.bind] at h
    obtain ⟨child, hs, h⟩ := bind_ok.mp h
    obtain ⟨child', hm, h⟩ := bind_ok.mp h
    have hstep : child? root seg = some child ∧ isObj root = true ∧ hasOwn root seg = true := by
      cases root with
      | array items =>
        cases seg with
        | key k => cases hs
        | index n =>
          rw [stepInto] at hs
          · cases hc : child? (.array items) (.index n) with
            | none => rw [hc] at hs; cases hs
            | some c =>
              rw [hc] at hs
              cases hs
              exact ⟨rfl, rfl, by simp [hasOwn, hc]⟩
          · intro _ _ _ hk
            cases hk
      | object props =>
        rw [stepInto] at hs
        · cases hc : child? (.object props) seg with
          | none => rw [hc] at hs; cases hs
          | some c =>
            rw [hc] at hs
            cases hs
            exact ⟨rfl, rfl, by simp [hasOwn, hc]⟩
        · intro _ _ hk
          cases hk
      | _ => cases hs
    rw [copyContainers, hstep.2.1, hstep.2.2, hstep.1]
    exact ih hm

/-- An operation other than `r` changes one container of an existing root. -/
theorem applyOp_container (hrep : op.isReplace = false) (hval : assertValidOp op = .ok ())
    (h : applyOp root op = .ok next) :
    ∃ j f, root = some j ∧ modifyAt op.containerPath f op.containerPath j = .ok next := by
  have hne := ((assertValidOp_ok_iff op).mp hval).2.1
  cases root with
  | none =>
    exfalso
    cases hroot : op.rootAllowed with
    | true =>
      cases op with
      | r value => cases hrep
      | p | m => simp [applyOp, hval, orUndefined, bind, Except.bind] at h
      | _ => cases hroot
    | false =>
      have hlast := List.getLast?_eq_getLast_of_ne_nil (hne hroot)
      cases op with
      | r value => cases hrep
      | p | m => cases hroot
      | _ => simp [applyOp, hval, hlast, orUndefined, bind, Except.bind] at h
  | some j =>
    cases hroot : op.rootAllowed with
    | false =>
      obtain ⟨P, key, hpath⟩ : ∃ P key, op.path = P ++ [key] :=
        ⟨_, _, (List.dropLast_concat_getLast (hne hroot)).symm⟩
      rw [applyOp_parent hroot hval hpath] at h
      refine ⟨j, applyToParent op key, rfl, ?_⟩
      rw [Op.containerPath, if_neg (by rw [hroot]; simp), hpath, List.dropLast_concat]
      exact h
    | true =>
      cases op with
      | r value => cases hrep
      | p | m =>
        simp only [applyOp, hval, orUndefined, bind, Except.bind] at h
        exact ⟨j, _, rfl, h⟩
      | _ => cases hroot

theorem applyImmutable_cons (hval : assertValidOp op = .ok ())
    (h : applyOp root op = .ok next) (ops : List Op) :
    applyImmutable root (op :: ops) = applyImmutable (some next) ops := by
  cases hrep : op.isReplace with
  | true =>
    cases op with
    | r value => cases h; rfl
    | _ => cases hrep
  | false =>
    obtain ⟨j, f, rfl, hm⟩ := applyOp_container hrep hval h
    have hcopy := copyContainers_ok hm
    cases op with
    | r value => cases hrep
    | _ => simp only [applyImmutable, orUndefined, hcopy, h, bind, Except.bind]

/-- `applyImmutable` carries out the meaning of a batch. -/
theorem applyImmutable_follows {ops : List Op} (hval : ∀ op ∈ ops, assertValidOp op = .ok ())
    (h : edits ops (root.map Json.doc) = some y) :
    ∃ next, applyImmutable root ops = .ok next ∧ y = next.map Json.doc := by
  induction ops generalizing root with
  | nil =>
    cases h
    exact ⟨root, rfl, rfl⟩
  | cons op ops ih =>
    obtain ⟨x, hx, hrest⟩ := Option.bind_eq_some_iff.mp h
    have hop := hval op List.mem_cons_self
    obtain ⟨j, hj, rfl⟩ := applyOp_follows hop hx
    have hrest : edits ops ((some j).map Json.doc) = some y := hrest
    obtain ⟨next, hn, hy⟩ := ih (fun op' hop' => hval op' (List.mem_cons_of_mem _ hop')) hrest
    exact ⟨next, by rw [applyImmutable_cons hop hj, hn], hy⟩

end Delta
end Shuvpi
