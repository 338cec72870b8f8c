import Shuvpi.DeltaUntrusted

/-!
# Untrusted operations cannot corrupt a replica

What `decode` puts out passes `assertValidOp`, whatever it was given. Applying such
operations to a JSON document reads own properties only, writes no reserved key, lets an
array grow by no more than the operation carries and one, and ends with an error or
with a JSON document, if the values that the operations carry are JSON. The validators
look at verbs, paths and counts and not at those values.
-/
namespace Shuvpi.Delta.Untrusted

open Cbor (JsValue)
open JsText (ofString)
open Except hiding bind error ok pure
open List

/-! ## Decoding -/

def PathsSafe (paths : Paths) : Prop := ∀ p ∈ paths, assertSafePath p.2 = .ok ()

def PreviousSafe (previous : Option (List JsValue)) : Prop := ∀ path, previous = some path → assertSafePath path = .ok ()

theorem check_ok {holds : Bool} {message : String} : check holds message = .ok () ↔ holds = true := by
  cases holds <;> simp [check]

theorem seq_ok {x y : Except OpError Unit} : (do x; y) = .ok () ↔ x = .ok () ∧ y = .ok () := by
  cases x with
  | error | ok => simp [bind, Except.bind]

variable {paths : Paths} {path : List JsValue}

theorem lookup_mem {n : Nat} (h : paths.lookup n = some path) : (n, path) ∈ paths := by
  induction paths with
  | nil => cases h
  | cons p paths ih =>
    obtain ⟨m, path'⟩ := p
    rw [lookup_cons] at h
    split at h
    · rename_i he
      cases h
      rw [beq_iff_eq] at he
      rw [he]
      exact mem_cons_self
    · exact mem_cons_of_mem _ (ih h)

variable {previous : Option (List JsValue)}

theorem resolveRef_safe {ref : Option JsValue} (hpaths : PathsSafe paths) (hprev : PreviousSafe previous)
    (href : ∀ r, ref = some r → okRef r = .ok ()) (h : resolveRef paths previous ref = .ok path) :
    assertSafePath path = .ok () := by
  cases ref with
  | none =>
    cases previous with
    | none => cases h
    | some path' =>
      cases h
      exact hprev path rfl
  | some r =>
    have hr := href r rfl
    cases r with
    | number x =>
      rw [resolveRef] at h
      split at h
      · cases h
      · rename_i path' hp
        cases h
        exact hpaths _ (lookup_mem hp)
    | array path' =>
      cases h
      exact hr
    | _ => cases h

theorem assertPathArg_of_safe {nonEmpty : Bool} (h : assertSafePath path = .ok ()) (hne : nonEmpty = true → path ≠ []) :
    assertPathArg (.array path) nonEmpty = .ok () := by
  cases nonEmpty with
  | false => exact h
  | true =>
    cases path with
    | nil => exact absurd rfl (hne rfl)
    | cons seg path => exact h

variable {value : JsValue}

theorem isCount_element (h : isCount value = true) : element value = value := by
  cases value with
  | number x => rfl
  | _ => cases h

theorem isString_element (h : isString value = true) : element value = value := by
  cases value with
  | string s => rfl
  | _ => cases h

theorem isArray_element (h : isArray value = true) : element value = value := by
  cases value with
  | array items => rfl
  | _ => cases h

theorem assertPermutation_element (h : assertPermutation value = .ok ()) : element value = value := by
  cases value with
  | array items => rfl
  | _ => cases h

variable {args : List JsValue} {verb : JsValue}

/-- What the wire grammar says of a tuple other than `r` and `#`: its reference is in
order, and with a safe path in its place the tuple is a valid operation. -/
theorem wire_tuple {v : Verb} (hverb : verbOf verb = some v) (hr : v ≠ .r) (hd : v ≠ .define)
    (h : assertValidWireOp (.array (verb :: args)) = .ok ()) :
    (∀ r, (splitRef v args).1 = some r → okRef r = .ok ()) ∧
      ∀ path, assertSafePath path = .ok () → ¬ (v ≠ .p ∧ v ≠ .m ∧ path = []) →
        assertValidOp (.array (verb :: .array path :: (splitRef v args).2.map element)) = .ok () := by
  have hpath : ∀ path : List JsValue, v ≠ .p → v ≠ .m → assertSafePath path = .ok () →
      ¬ (v ≠ .p ∧ v ≠ .m ∧ path = []) → assertPathArg (.array path) true = .ok () := by
    intro path hp hm hsafe hne
    exact assertPathArg_of_safe hsafe (fun _ he => hne ⟨hp, hm, he⟩)
  cases v with
  | r => exact absurd rfl hr
  | define => exact absurd rfl hd
  | s =>
    match args with
    | [] => simp [assertValidWireOp, hverb, check] at h
    | [value] =>
      refine ⟨by simp [splitRef], ?_⟩
      intro path hsafe hne
      simpa [splitRef, assertValidOp, hverb] using hpath path (by simp) (by simp) hsafe hne
    | [ref, value] =>
      simp only [assertValidWireOp, hverb] at h
      refine ⟨by simpa [splitRef] using h, ?_⟩
      intro path hsafe hne
      simpa [splitRef, assertValidOp, hverb] using hpath path (by simp) (by simp) hsafe hne
    | _ :: _ :: _ :: _ => simp [assertValidWireOp, hverb, check] at h
  | d =>
    match args with
    | [] =>
      refine ⟨by simp [splitRef], ?_⟩
      intro path hsafe hne
      simpa [splitRef, assertValidOp, hverb] using hpath path (by simp) (by simp) hsafe hne
    | [ref] =>
      simp only [assertValidWireOp, hverb] at h
      refine ⟨by simpa [splitRef] using h, ?_⟩
      intro path hsafe hne
      simpa [splitRef, assertValidOp, hverb] using hpath path (by simp) (by simp) hsafe hne
    | _ :: _ :: _ => simp [assertValidWireOp, hverb, check] at h
  | a =>
    match args with
    | [] => simp [assertValidWireOp, hverb] at h
    | [text] =>
      simp only [assertValidWireOp, hverb, check_ok] at h
      refine ⟨by simp [splitRef], ?_⟩
      intro path hsafe hne
      simp only [splitRef, assertValidOp, hverb, length_singleton, if_true, map_cons, map_nil,
        isString_element h, seq_ok, check_ok]
      exact ⟨h, hpath path (by simp) (by simp) hsafe hne⟩
    | [ref, text] =>
      simp only [assertValidWireOp, hverb, seq_ok, check_ok] at h
      refine ⟨by simpa [splitRef] using h.1, ?_⟩
      intro path hsafe hne
      simp only [splitRef, assertValidOp, hverb, length_cons, length_nil, tail_cons, map_cons,
        map_nil, isString_element h.2, seq_ok, check_ok, Nat.reduceAdd, OfNat.ofNat_ne_one, if_false]
      exact ⟨h.2, hpath path (by simp) (by simp) hsafe hne⟩
    | _ :: _ :: _ :: _ => simp [assertValidWireOp, hverb] at h
  | t =>
    match args with
    | [] => simp [assertValidWireOp, hverb] at h
    | [n] =>
      simp only [assertValidWireOp, hverb, check_ok] at h
      refine ⟨by simp [splitRef], ?_⟩
      intro path hsafe hne
      simp only [splitRef, assertValidOp, hverb, length_singleton, if_true, map_cons, map_nil,
        isCount_element h, seq_ok, check_ok]
      exact ⟨h, hpath path (by simp) (by simp) hsafe hne⟩
    | [ref, n] =>
      simp only [assertValidWireOp, hverb, seq_ok, check_ok] at h
      refine ⟨by simpa [splitRef] using h.1, ?_⟩
      intro path hsafe hne
      simp only [splitRef, assertValidOp, hverb, length_cons, length_nil, tail_cons, map_cons,
        map_nil, isCount_element h.2, seq_ok, check_ok, Nat.reduceAdd, OfNat.ofNat_ne_one, if_false]
      exact ⟨h.2, hpath path (by simp) (by simp) hsafe hne⟩
    | _ :: _ :: _ :: _ => simp [assertValidWireOp, hverb] at h
  | p =>
    match args with
    | [] => simp [assertValidWireOp, hverb] at h
    | [_] => simp [assertValidWireOp, hverb] at h
    | [_, _] => simp [assertValidWireOp, hverb] at h
    | [index, remove, items] =>
      simp only [assertValidWireOp, hverb, assertSplice, seq_ok, check_ok] at h
      obtain ⟨_, hi, hrem, hitems⟩ := h
      refine ⟨by simp [splitRef], ?_⟩
      intro path hsafe _
      simp only [splitRef, assertValidOp, hverb, length_cons, length_nil, Nat.reduceAdd, if_true,
        map_cons, map_nil, isCount_element hi, isCount_element hrem, isArray_element hitems, seq_ok, check_ok]
      exact ⟨assertPathArg_of_safe hsafe (by simp), hi, hrem, hitems⟩
    | [ref, index, remove, items] =>
      simp only [assertValidWireOp, hverb, assertSplice, seq_ok, check_ok] at h
      obtain ⟨_, href, hi, hrem, hitems⟩ := h
      refine ⟨by simpa [splitRef] using href, ?_⟩
      intro path hsafe _
      simp only [splitRef, assertValidOp, hverb, length_cons, length_nil, Nat.reduceAdd, Nat.reduceEqDiff,
        if_false, tail_cons, map_cons, map_nil, isCount_element hi, isCount_element hrem,
        isArray_element hitems, seq_ok, check_ok]
      exact ⟨assertPathArg_of_safe hsafe (by simp), hi, hrem, hitems⟩
    | _ :: _ :: _ :: _ :: _ :: _ => simp [assertValidWireOp, hverb] at h
  | m =>
    match args with
    | [] => simp [assertValidWireOp, hverb] at h
    | [order] =>
      simp only [assertValidWireOp, hverb] at h
      refine ⟨by simp [splitRef], ?_⟩
      intro path hsafe _
      simp only [splitRef, assertValidOp, hverb, length_singleton, if_true, map_cons, map_nil,
        assertPermutation_element h, seq_ok]
      exact ⟨assertPathArg_of_safe hsafe (by simp), h⟩
    | [ref, order] =>
      simp only [assertValidWireOp, hverb, seq_ok] at h
      refine ⟨by simpa [splitRef] using h.1, ?_⟩
      intro path hsafe _
      simp only [splitRef, assertValidOp, hverb, length_cons, length_nil, tail_cons, map_cons,
        map_nil, assertPermutation_element h.2, seq_ok, Nat.reduceAdd, OfNat.ofNat_ne_one, if_false]
      exact ⟨assertPathArg_of_safe hsafe (by simp), h.2⟩
    | _ :: _ :: _ :: _ => simp [assertValidWireOp, hverb] at h

theorem wire_define (hverb : verbOf verb = some .define) (h : assertValidWireOp (.array (verb :: args)) = .ok ()) :
    ∃ id path, args = [id, .array path] ∧ assertSafePath path = .ok () := by
  match args with
  | [] => simp [assertValidWireOp, hverb] at h
  | [_] => simp [assertValidWireOp, hverb] at h
  | [id, second] =>
    cases second with
    | array path =>
      simp only [assertValidWireOp, hverb, seq_ok] at h
      exact ⟨id, path, rfl, h.2⟩
    | _ => simp [assertValidWireOp, hverb] at h
  | _ :: _ :: _ :: _ => simp [assertValidWireOp, hverb] at h

/-- The turn of the loop for a tuple other than `r` and `#`. -/
theorem decodeOp_tuple {v : Verb} (hverb : verbOf verb = some v) (hr : v ≠ .r) (hd : v ≠ .define)
    (hwire : assertValidWireOp (.array (verb :: args)) = .ok ()) (paths : Paths) (previous : Option (List JsValue)) :
    decodeOp paths previous (.array (verb :: args)) = (do
      let path ← resolveRef paths previous (splitRef v args).1
      if v ≠ .p ∧ v ≠ .m ∧ path = [] then throw (.pathError path)
      return (paths, if (splitRef v args).1.isNone then previous else some path,
        [.array (verb :: .array path :: (splitRef v args).2.map element)])) := by
  unfold decodeOp
  simp only [hwire, bind, Except.bind]
  cases v with
  | r => exact absurd rfl hr
  | define => exact absurd rfl hd
  | _ => simp only [hverb]

/-- One turn of the loop keeps the known paths safe and puts out valid operations. -/
theorem decodeOp_valid {paths' : Paths} {previous' : Option (List JsValue)} {op : JsValue} {out : List JsValue}
    (hpaths : PathsSafe paths) (hprev : PreviousSafe previous)
    (h : decodeOp paths previous op = .ok (paths', previous', out)) :
    PathsSafe paths' ∧ PreviousSafe previous' ∧ ∀ op ∈ out, assertValidOp op = .ok () := by
  have hwire : assertValidWireOp op = .ok () := by
    cases hw : assertValidWireOp op with
    | ok u => rfl
    | error e =>
      unfold decodeOp at h
      simp [hw, bind, Except.bind] at h
  match op, hwire, h with
  | .array (verb :: args), hwire, h =>
    cases hverb : verbOf verb with
    | none => simp [assertValidWireOp, hverb] at hwire
    | some v =>
      by_cases hr : v = .r
      · subst hr
        simp only [decodeOp, hwire, hverb, bind, Except.bind, pure, Except.pure] at h
        cases h
        refine ⟨?_, ?_, ?_⟩
        · intro p hp
          cases hp
        · intro path hp
          cases hp
        · intro op hop
          rw [List.mem_singleton] at hop
          subst hop
          simpa [assertValidOp, assertValidWireOp, hverb] using hwire
      · by_cases hd : v = .define
        · subst hd
          obtain ⟨id, path, rfl, hsafe⟩ := wire_define hverb hwire
          simp only [decodeOp, hwire, hverb, bind, Except.bind, pure, Except.pure] at h
          cases h
          refine ⟨?_, hprev, by simp⟩
          intro p hp
          rcases List.mem_cons.mp hp with rfl | hp
          · exact hsafe
          · exact hpaths p hp
        · obtain ⟨href, hval⟩ := wire_tuple hverb hr hd hwire
          rw [decodeOp_tuple hverb hr hd hwire] at h
          cases hres : resolveRef paths previous (splitRef v args).1 with
          | error e => simp [hres, bind, Except.bind] at h
          | ok path =>
            simp only [hres, bind, Except.bind] at h
            have hsafe := resolveRef_safe hpaths hprev href hres
            split at h
            · cases h
            · rename_i hne
              cases h
              refine ⟨hpaths, ?_, ?_⟩
              · intro path' hp
                split at hp
                · exact hprev path' hp
                · cases hp
                  exact hsafe
              · intro op hop
                rw [List.mem_singleton] at hop
                rw [hop]
                exact hval path hsafe hne

theorem decodeOps_valid (wire : List JsValue) (hpaths : PathsSafe paths) (hprev : PreviousSafe previous) :
    PathsSafe (decodeOps paths previous wire).1 ∧
      ∀ ops, (decodeOps paths previous wire).2 = .ok ops → ∀ op ∈ ops, assertValidOp op = .ok () := by
  induction wire generalizing paths previous with
  | nil =>
    refine ⟨hpaths, ?_⟩
    intro ops h
    cases h
    simp
  | cons op wire ih =>
    rw [decodeOps]
    cases hop : decodeOp paths previous op with
    | error e => exact ⟨hpaths, by simp⟩
    | ok r =>
      obtain ⟨paths', previous', out⟩ := r
      obtain ⟨hpaths', hprev', hout⟩ := decodeOp_valid hpaths hprev hop
      obtain ⟨hrest, hops⟩ := ih hpaths' hprev'
      dsimp only
      cases hd : decodeOps paths' previous' wire with
      | mk paths'' result =>
        rw [hd] at hrest hops
        cases result with
        | error e => exact ⟨hrest, by simp⟩
        | ok rest =>
          refine ⟨hrest, ?_⟩
          intro ops he
          cases he
          intro op' hop'
          rcases mem_append.mp hop' with hop' | hop'
          · exact hout op' hop'
          · exact hops rest rfl op' hop'

/-! ## JSON values -/

theorem itemsJson_iff (items : List JsValue) : itemsJson items = true ↔ ∀ value ∈ items, isJson value = true := by
  induction items with
  | nil => simp [itemsJson]
  | cons value items ih => simp [itemsJson, ih]

theorem propsJson_iff (props : List (JsString × JsValue)) :
    propsJson props = true ↔ ∀ p ∈ props, isJson p.2 = true := by
  induction props with
  | nil => simp [propsJson]
  | cons p props ih =>
    obtain ⟨key, value⟩ := p
    simp [propsJson, ih]

theorem isJson_array (items : List JsValue) : isJson (.array items) = true ↔ ∀ value ∈ items, isJson value = true := by
  rw [isJson, itemsJson_iff]

variable {props : List (JsString × JsValue)}

theorem isJson_object {symbols : Bool} :
    isJson (.object symbols props) = true ↔ symbols = false ∧ ∀ p ∈ props, isJson p.2 = true := by
  rw [isJson, Bool.and_eq_true, propsJson_iff, Bool.not_eq_true']

theorem element_json (h : isJson value = true) : isJson (element value) = true := by
  cases value with
  | hole => cases h
  | _ => exact h

theorem own_array {items : List JsValue} (h : isJson (.array items) = true) (n : Nat) :
    own (.array items) (.index n) = items[n]? := by
  rw [own]
  cases hn : items[n]? with
  | none => rfl
  | some item =>
    have hjson := (isJson_array items).mp h item (mem_of_getElem? hn)
    cases item with
    | hole => cases hjson
    | _ => rfl

theorem own_json {node : JsValue} {seg : Seg} (h : isJson node = true) (hown : own node seg = some value) :
    isJson value = true := by
  cases node with
  | array items =>
    cases seg with
    | key name => cases hown
    | index n =>
      rw [own_array h] at hown
      exact (isJson_array items).mp h value (mem_of_getElem? hown)
  | object symbols props => exact (isJson_object.mp h).2 _ (JsProps.mem_of_get? hown)
  | _ => cases hown

theorem define_json (key : JsString) (h : ∀ p ∈ props, isJson p.2 = true) (hvalue : isJson value = true) :
    ∀ p ∈ JsProps.define props key value, isJson p.2 = true := by
  intro p hp
  rw [JsProps.define] at hp
  split at hp
  · obtain ⟨q, hq, rfl⟩ := mem_map.mp hp
    split
    · exact hvalue
    · exact h q hq
  · rcases mem_cons.mp ((JsProps.insertNew_perm props key value).mem_iff.mp hp) with rfl | hp
    · exact hvalue
    · exact h p hp

theorem setOwn_json {node : JsValue} (seg : Seg) (h : isJson node = true) (hvalue : isJson value = true) :
    isJson (setOwn node seg value) = true := by
  cases node with
  | array items =>
    cases seg with
    | key name => exact h
    | index n =>
      rw [setOwn, isJson_array]
      intro v hv
      rcases mem_or_eq_of_mem_set hv with hv | rfl
      · exact (isJson_array items).mp h v hv
      · exact hvalue
  | object symbols props =>
    obtain ⟨hs, hp⟩ := isJson_object.mp h
    rw [setOwn, isJson_object]
    exact ⟨hs, define_json seg.name hp hvalue⟩
  | _ => exact h

/-! ## Accesses -/

/-- A safe access, where reads are only looked at if `J` holds. -/
def Access.SafeIf (J : Prop) : Access → Prop
  | .read node key => J → hasOwn node key = true
  | access => access.Safe

/-- All accesses are safe, and so is the result. -/
def Run.Ok {α : Type} (J : Prop) (P : α → Prop) (x : Run α) : Prop :=
  (∀ a ∈ x.accesses, a.SafeIf J) ∧ ∀ v, x.result = .ok v → P v

section Rules

variable {α β : Type} {J : Prop} {P : α → Prop} {Q : β → Prop}

theorem ok_pure {a : α} (h : P a) : (pure a : Run α).Ok J P := by
  refine ⟨?_, ?_⟩
  · intro a ha
    cases ha
  · intro v hv
    cases hv
    exact h

theorem ok_throw (e : OpError) : (Run.throw e : Run α).Ok J P := by
  refine ⟨?_, ?_⟩
  · intro a ha
    cases ha
  · intro v hv
    cases hv

theorem ok_bind {x : Run α} {f : α → Run β} (hx : x.Ok J P) (hf : ∀ a, P a → (f a).Ok J Q) : (x >>= f).Ok J Q := by
  show (Run.bind x f).Ok J Q
  rw [Run.bind]
  cases hr : x.result with
  | error e =>
    refine ⟨hx.1, ?_⟩
    intro v hv
    cases hv
  | ok a =>
    obtain ⟨haccess, hres⟩ := hf a (hx.2 a hr)
    refine ⟨?_, hres⟩
    intro access ha
    rcases mem_append.mp ha with ha | ha
    · exact hx.1 access ha
    · exact haccess access ha

theorem ok_access {a : Access} (h : a.SafeIf J) : (Run.access a).Ok J fun _ => True := by
  refine ⟨?_, fun _ _ => trivial⟩
  intro a' ha
  cases mem_singleton.mp ha
  exact h

theorem ok_lift (x : Except OpError Unit) : (Run.lift x).Ok J fun _ => x = .ok () := by
  refine ⟨?_, fun _ hv => hv⟩
  intro a ha
  cases ha

end Rules

section Apply

-- `J` says that the document and all that is put into it are JSON.
variable (inherited : JsValue → Seg → JsValue) {J : Prop}

/-- The result is JSON, if `J` holds. -/
def JsonIf (J : Prop) (value : JsValue) : Prop := J → isJson value = true

variable {node : JsValue}

theorem get_ok {seg : Seg} (h : JsonIf J node) (hown : J → hasOwn node seg = true) :
    (get inherited node seg).Ok J (JsonIf J) := by
  rw [get]
  refine ok_bind (ok_access hown) fun _ _ => ok_pure ?_
  intro hJ
  obtain ⟨value, hvalue⟩ := Option.isSome_iff_exists.mp (hown hJ)
  rw [hvalue, Option.getD_some]
  exact own_json (h hJ) hvalue

theorem modifyAt_ok (whole : List JsValue) {f : JsValue → Run JsValue} (hf : ∀ node, JsonIf J node → (f node).Ok J (JsonIf J))
    (path : List JsValue) (root : JsValue) (hroot : JsonIf J root) :
    (modifyAt inherited whole f path root).Ok J (JsonIf J) := by
  induction path generalizing root with
  | nil =>
    rw [modifyAt]
    split
    · exact hf root hroot
    · exact ok_throw _
  | cons seg path ih =>
    rw [modifyAt]
    split
    · exact ok_throw _
    · split
      · exact ok_throw _
      · split
        · exact ok_throw _
        · rename_i hown
          have hown : hasOwn root (segment seg) = true := by simpa using hown
          refine ok_bind (get_ok inherited hroot fun _ => hown) fun child hchild => ?_
          refine ok_bind (ih child hchild) fun changed hchg => ok_pure ?_
          intro hJ
          exact setOwn_json _ (hroot hJ) (hchg hJ)

theorem applySplice_ok (path : List JsValue) (index remove : Nat) {items : List JsValue}
    (hitems : J → itemsJson items = true) (h : JsonIf J node) :
    (applySplice path index remove items node).Ok J (JsonIf J) := by
  cases node with
  | array target =>
    rw [applySplice]
    refine ok_bind (ok_access ?_) fun _ _ => ok_pure ?_
    · simp only [Access.SafeIf, Access.Safe, spliceItems_eq, splice, length_append, length_take,
        length_drop, length_map]
      omega
    · intro hJ
      rw [isJson_array, spliceItems_eq]
      intro value hv
      simp only [splice, mem_append] at hv
      rcases hv with (hv | hv) | hv
      · exact (isJson_array target).mp (h hJ) value (mem_of_mem_take hv)
      · obtain ⟨item, hitem, rfl⟩ := mem_map.mp hv
        exact element_json ((itemsJson_iff items).mp (hitems hJ) item hitem)
      · exact (isJson_array target).mp (h hJ) value (mem_of_mem_drop hv)
  | _ => exact ok_throw _

theorem reorder_ok {previous : List JsValue} (h : JsonIf J (.array previous)) (order : List JsValue) (index : Nat)
    (horder : ∀ j ∈ order, count j < previous.length) :
    (reorder inherited previous order index).Ok J fun items => J → ∀ item ∈ items, isJson item = true := by
  induction order generalizing index with
  | nil => exact ok_pure (by simp)
  | cons j order ih =>
    rw [reorder]
    have hown : J → hasOwn (.array previous) (.index (count j)) = true := by
      intro hJ
      have hlt := horder j mem_cons_self
      rw [hasOwn, own_array (h hJ), getElem?_eq_getElem hlt]
      rfl
    refine ok_bind (get_ok inherited h hown) fun item hitem => ?_
    refine ok_bind (ok_access rfl) fun _ _ => ?_
    refine ok_bind (ih (index + 1) fun j' hj' => horder j' (mem_cons_of_mem _ hj')) fun rest hrest => ?_
    apply ok_pure
    intro hJ value hv
    rcases mem_cons.mp hv with rfl | hv
    · exact hitem hJ
    · exact hrest hJ value hv

variable {order : List JsValue}

theorem distinct_lt {length : Nat} {seen : List Nat}
    (h : assertDistinctIndices length seen order = .ok ()) : ∀ j ∈ order, count j < length := by
  induction order generalizing seen with
  | nil => simp
  | cons j order ih =>
    rw [assertDistinctIndices] at h
    split at h
    · rename_i hj
      simp only [Bool.and_eq_true, decide_eq_true_eq] at hj
      intro j' hj'
      rcases mem_cons.mp hj' with rfl | hj'
      · exact hj.1.2
      · exact ih h j' hj'
    · cases h

theorem applyOrder_ok (path : List JsValue) (horder : assertPermutation (.array order) = .ok ()) (h : JsonIf J node) :
    (applyOrder inherited path order node).Ok J (JsonIf J) := by
  cases node with
  | array previous =>
    rw [applyOrder]
    split
    · rename_i hlen
      refine ok_bind (reorder_ok inherited h order 0 ?_) fun items hitems => ok_pure ?_
      · intro j hj
        rw [hlen]
        exact distinct_lt horder j hj
      · intro hJ
        exact (isJson_array items).mpr (hitems hJ)
    · exact ok_throw _
  | _ => exact ok_throw _

variable {parent : JsValue}

theorem write_ok {key : Seg} (h : JsonIf J parent) (hkey : key.reserved = false)
    (hvalue : JsonIf J value) : (write parent key value).Ok J (JsonIf J) := by
  unfold write
  refine ok_bind (ok_access hkey) fun _ _ => ?_
  cases parent with
  | array items =>
    cases key with
    | key name => exact ok_pure h
    | index n =>
      dsimp only
      split
      · refine ok_pure fun hJ => ?_
        exact setOwn_json (.index n) (h hJ) (hvalue hJ)
      · refine ok_bind (ok_access (Nat.le_refl _)) fun _ _ => ok_pure fun hJ => ?_
        rw [isJson_array]
        intro v hv
        rcases mem_append.mp hv with hv | hv
        · exact (isJson_array items).mp (h hJ) v hv
        · rw [mem_singleton.mp hv]
          exact hvalue hJ
  | object symbols props => exact ok_pure fun hJ => setOwn_json key (h hJ) (hvalue hJ)
  | _ => exact ok_pure h

theorem deleteKey_ok (path : List JsValue) {key : Seg} (h : JsonIf J parent) (hkey : key.reserved = false) :
    (deleteKey path parent key).Ok J (JsonIf J) := by
  cases parent with
  | array items =>
    cases key with
    | key name => exact ok_bind (ok_access hkey) fun _ _ => ok_pure h
    | index n =>
      rw [deleteKey]
      split
      · refine ok_bind (ok_access ?_) fun _ _ => ok_pure fun hJ => ?_
        · simp only [Access.SafeIf, Access.Safe]
          have := length_eraseIdx_le items n
          omega
        · rw [isJson_array]
          intro v hv
          exact (isJson_array items).mp (h hJ) v (mem_of_mem_eraseIdx hv)
      · exact ok_throw _
  | object symbols props =>
    refine ok_bind (ok_access hkey) fun _ _ => ok_pure fun hJ => ?_
    obtain ⟨hs, hp⟩ := isJson_object.mp (h hJ)
    rw [isJson_object]
    exact ⟨hs, fun p hmem => hp p (mem_of_mem_filter hmem)⟩
  | _ => exact ok_bind (ok_access hkey) fun _ _ => ok_pure h

theorem readString_ok (path : List JsValue) (key : Seg) (h : JsonIf J parent) :
    (readString inherited path parent key).Ok J fun _ => True := by
  rw [readString]
  split
  · rename_i hown
    refine ok_bind (get_ok inherited h fun _ => hown) fun value _ => ?_
    cases value with
    | string s => exact ok_pure trivial
    | _ => exact ok_throw _
  · exact ok_throw _

theorem segment_reserved {seg : JsValue} (h : isSafeSegment seg = true) : (segment seg).reserved = false := by
  cases seg with
  | string s => simpa [isSafeSegment, segment, Seg.reserved] using h
  | _ => rfl

theorem assertIndexInRange_ok (parent key : JsValue) : (assertIndexInRange parent key).Ok J fun _ => True := by
  cases parent with
  | array items =>
    rw [assertIndexInRange]
    split
    · exact ok_throw _
    · split
      · exact ok_throw _
      · exact ok_pure trivial
  | _ => exact ok_pure trivial

theorem applyToParent_ok (verb : Verb) (path : List JsValue) {key payload : JsValue} (hkey : isSafeSegment key = true)
    (hpay : verb = .s → JsonIf J payload) (h : JsonIf J parent) :
    (applyToParent inherited verb path key payload parent).Ok J (JsonIf J) := by
  unfold applyToParent
  refine ok_bind (assertIndexInRange_ok parent key) fun _ _ => ?_
  have hres := segment_reserved hkey
  split
  · exact write_ok h hres fun hJ => element_json (hpay rfl hJ)
  · exact deleteKey_ok path h hres
  · exact ok_bind (readString_ok inherited path _ h) fun s _ => write_ok h hres fun _ => rfl
  · exact ok_bind (readString_ok inherited path _ h) fun s _ => write_ok h hres fun _ => rfl
  · exact ok_pure h

theorem safe_last {path : List JsValue} (h : assertSafePath path = .ok ()) {key : JsValue} (hkey : path.getLast? = some key) :
    isSafeSegment key = true := by
  induction path with
  | nil => cases hkey
  | cons seg path ih =>
    rw [assertSafePath] at h
    split at h
    · rename_i hs
      cases path with
      | nil =>
        cases hkey
        exact hs
      | cons seg' path => exact ih h (by simpa using hkey)
    · cases h

variable {root : JsValue}

theorem applyParts_ok (hroot : JsonIf J root) {v : Verb} {path payload : List JsValue}
    (hsafe : assertSafePath path = .ok ()) (hlen : v = .s → payload.length = 1)
    (hs : v = .s → ∀ value, payload = [value] → JsonIf J value)
    (hp : v = .p → ∀ index remove items, payload = [index, remove, .array items] → J → itemsJson items = true)
    (hm : v = .m → ∀ order, payload = [.array order] → assertPermutation (.array order) = .ok ()) :
    (applyParts inherited root v path payload).Ok J (JsonIf J) := by
  unfold applyParts
  split
  · rename_i index remove items
    exact modifyAt_ok inherited path (fun node h => applySplice_ok path _ _ (hp rfl index remove items rfl) h) path root hroot
  · rename_i order
    exact modifyAt_ok inherited path (fun node h => applyOrder_ok inherited path (hm rfl order rfl) h) path root hroot
  · split
    · exact ok_throw _
    · rename_i key hkey
      refine modifyAt_ok inherited _ (fun node h => ?_) _ root hroot
      refine applyToParent_ok inherited v path (safe_last hsafe hkey) ?_ h
      intro hv
      obtain ⟨value, rfl⟩ := length_eq_one_iff.mp (hlen hv)
      exact hs hv value rfl

theorem applyOp_ok {op : JsValue} (hroot : JsonIf J root) (hpay : J → payloadJson op = true) :
    (applyOp inherited root op).Ok J (JsonIf J) := by
  unfold applyOp
  refine ok_bind (ok_lift _) fun _ hval => ?_
  split
  · rename_i verb args
    split
    · rename_i value hverb
      refine ok_pure fun hJ => ?_
      have hpay := hpay hJ
      simp only [payloadJson, hverb] at hpay
      exact element_json hpay
    · rename_i v path payload hnr hverb
      refine ok_bind (ok_lift _) fun _ hsafe => ?_
      apply applyParts_ok inherited hroot hsafe
      · rintro rfl
        match payload with
        | [] => simp [assertValidOp, hverb] at hval
        | [value] => rfl
        | _ :: _ :: _ => simp [assertValidOp, hverb] at hval
      · rintro rfl value rfl hJ
        simpa only [payloadJson, hverb] using hpay hJ
      · rintro rfl index remove items rfl hJ
        simpa only [payloadJson, hverb] using hpay hJ
      · rintro rfl order rfl
        simp only [assertValidOp, hverb, seq_ok] at hval
        exact hval.2
    · exact ok_throw _
  · exact ok_throw _

theorem apply_ok (ops : List JsValue) (hroot : JsonIf J root) (hpay : J → ∀ op ∈ ops, payloadJson op = true) :
    (apply inherited root ops).Ok J (JsonIf J) := by
  induction ops generalizing root with
  | nil => exact ok_pure hroot
  | cons op ops ih =>
    rw [apply]
    refine ok_bind (applyOp_ok inherited hroot fun hJ => hpay hJ op mem_cons_self) fun next hnext => ?_
    exact ih hnext fun hJ op' hop' => hpay hJ op' (mem_cons_of_mem _ hop')

end Apply

/-- The paths of a decoder after it has been handed some batches, valid or not. -/
def decodedPaths (batches : List (List JsValue)) : Paths := batches.foldl (fun paths wire => (decode paths wire).1) []

theorem decodedPaths_safe (batches : List (List JsValue)) (h : PathsSafe paths) :
    PathsSafe (batches.foldl (fun paths wire => (decode paths wire).1) paths) := by
  induction batches generalizing paths with
  | nil => exact h
  | cons wire batches ih => exact ih (decodeOps_valid wire h (by intro path hp; cases hp)).1

/-- An access that writes. -/
def Access.writes : Access → Bool
  | .read _ _ => false
  | _ => true

/-- Whatever a decoder is given, after whatever it was given before, it throws or puts out
valid operations. Applied to a document they write no reserved key and let no array grow
by more than they carry and one; and if the values that they carry are JSON, they read
own properties only and either throw or leave a JSON document. -/
theorem untrusted_operations (batches : List (List JsValue)) (wire ops : List JsValue)
    (hdecode : (decode (decodedPaths batches) wire).2 = .ok ops) :
    (∀ op ∈ ops, assertValidOp op = .ok ()) ∧
      ∀ (inherited : JsValue → Seg → JsValue) (root : JsValue), isJson root = true →
        (∀ access ∈ (apply inherited root ops).accesses, access.writes = true → access.Safe) ∧
          ((∀ op ∈ ops, payloadJson op = true) → (∀ access ∈ (apply inherited root ops).accesses, access.Safe) ∧
              ∀ value, (apply inherited root ops).result = .ok value → isJson value = true) := by
  have hstart : PathsSafe [] := by
    intro p hp
    cases hp
  have hpaths := decodedPaths_safe batches hstart
  refine ⟨(decodeOps_valid wire hpaths (by intro path hp; cases hp)).2 ops hdecode, ?_⟩
  intro inherited root hroot
  have hok := apply_ok inherited ops (J := ∀ op ∈ ops, payloadJson op = true) (fun _ => hroot) id
  refine ⟨?_, ?_⟩
  · intro access ha hw
    have hsafe := hok.1 access ha
    cases access with
    | read node key => cases hw
    | _ => exact hsafe
  · intro hJ
    refine ⟨?_, fun value hv => hok.2 value hv hJ⟩
    intro access ha
    have hsafe := hok.1 access ha
    cases access with
    | read node key => exact hsafe hJ
    | _ => exact hsafe

/-- Paths by id, an element one past the end and a short form, on `{xs: [true]}`. -/
def sampleWire : List JsValue :=
  [.array [.string (ofString "#"), .number (.ofInt 0), .array [.string (ofString "xs")]],
    .array [.string (ofString "p"), .number (.ofInt 0), .number (.ofInt 0), .number (.ofInt 0), .array [.null]],
    .array [.string (ofString "s"), .array [.string (ofString "xs"), .number (.ofInt 2)], .string (ofString "v")],
    .array [.string (ofString "a"), .string (ofString "w")]]

/-- The operations that were decoded, if they carry JSON values. -/
def decodedJson (wire : List JsValue) : Option (List JsValue) :=
  match (decode (decodedPaths []) wire).2 with
  | .ok ops => if ops.all payloadJson then some ops else none
  | .error _ => none

theorem decodedJson_some {wire ops : List JsValue} (h : decodedJson wire = some ops) :
    (decode (decodedPaths []) wire).2 = .ok ops ∧ ∀ op ∈ ops, payloadJson op = true := by
  rw [decodedJson] at h
  split at h
  · rename_i ops' hops
    split at h
    · rename_i hall
      cases h
      exact ⟨hops, all_eq_true.mp hall⟩
    · cases h
  · cases h

theorem untrusted_operations_sample :
    ∃ ops, (decode (decodedPaths []) sampleWire).2 = .ok ops ∧ (∀ op ∈ ops, assertValidOp op = .ok ()) ∧
      ∀ value, (apply (fun _ _ => .undefined) (.object false [(ofString "xs", .array [.boolean true])]) ops).result =
        .ok value → isJson value = true := by
  have hsome : (decodedJson sampleWire).isSome = true := by decide +kernel
  obtain ⟨ops, hops⟩ := Option.isSome_iff_exists.mp hsome
  obtain ⟨hdecode, hpayload⟩ := decodedJson_some hops
  obtain ⟨hvalid, happly⟩ := untrusted_operations [] sampleWire ops hdecode
  have hroot : isJson (.object false [(ofString "xs", .array [.boolean true])]) = true := by decide
  exact ⟨ops, hdecode, hvalid, ((happly (fun _ _ => .undefined) _ hroot).2 hpayload).2⟩

/-- The values that operations carry are not looked at: `["s", ["a"], undefined]` passes
and leaves a document that is not JSON. -/
theorem undefined_payload : ∃ ops value, (decode (decodedPaths [])
        [.array [.string (ofString "s"), .array [.string (ofString "a")], .undefined]]).2 = .ok ops ∧
      (apply (fun _ _ => .undefined) (.object false []) ops).result = .ok value ∧ isJson value = false :=
  ⟨_, _, rfl, rfl, rfl⟩

end Shuvpi.Delta.Untrusted
