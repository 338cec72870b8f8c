import Shuvpi.StdinSequences

/-!
# Splitting does not depend on the chunks

Input that consists of characters, complete sequences and pastes is emitted element by element,
wherever it is cut into chunks.
-/
open List

namespace Shuvpi.StdinBuffer

open Occurrence

/-! ## Elements -/

/-- One thing that a terminal sends. -/
inductive Element where
  | plain (u : UInt16)
  | sequence (text : JsString)
  | paste (content : JsString)
  deriving Repr, DecidableEq

namespace Element

def text : Element → JsString
  | .plain u => [u]
  | .sequence text => text
  | .paste content => BRACKETED_PASTE_START ++ (content ++ BRACKETED_PASTE_END)

/-- The part of an element that is told from its surroundings outside of a paste. -/
def frame : Element → JsString
  | .plain u => [u]
  | .sequence text => text
  | .paste _ => BRACKETED_PASTE_START

def isPaste : Element → Bool
  | .paste _ => true
  | _ => false

/-- A plain character is no escape, a sequence is not the start of a paste, and a paste ends where
its content does. -/
def Valid : Element → Prop
  | .plain u => u ≠ ESC
  | .sequence text => IsSequence text ∧ text ≠ BRACKETED_PASTE_START
  | .paste content => ¬ BRACKETED_PASTE_END <:+: content

end Element

def render (elements : List Element) : JsString := elements.flatMap Element.text

@[simp] theorem render_nil : render [] = [] := rfl

@[simp] theorem render_cons (e : Element) (es : List Element) : render (e :: es) = e.text ++ render es := flatMap_cons

variable (xs ys : List Element)

/-- The code point whose own report comes directly before. -/
def reported (previous : Option Element) : Option Nat :=
  match previous with
  | some (.sequence text) => parseUnmodifiedKittyPrintableCodepoint text
  | _ => none

/-- One event for each element, except for a character directly after its own report. -/
def expected (previous : Option Element) : List Element → List Event
  | [] => []
  | .plain u :: es =>
    if reported previous = some u.toNat then expected (some (.plain u)) es
    else .data [u] :: expected (some (.plain u)) es
  | .sequence text :: es => .data text :: expected (some (.sequence text)) es
  | .paste content :: es => .paste content :: expected (some (.paste content)) es

/-- The element before what follows. -/
def lastOf (previous : Option Element) (elements : List Element) : Option Element :=
  elements.foldl (fun _ e => some e) previous

variable (previous : Option Element)

theorem expected_append :
    expected previous (xs ++ ys) = expected previous xs ++ expected (lastOf previous xs) ys := by
  induction xs generalizing previous with
  | nil => rfl
  | cons e xs ih =>
    cases e with
    | plain u =>
      simp only [cons_append, expected, lastOf, foldl_cons]
      split
      · exact ih _
      · exact congrArg _ (ih _)
    | sequence | paste => exact congrArg _ (ih _)

theorem lastOf_append : lastOf previous (xs ++ ys) = lastOf (lastOf previous xs) ys := foldl_append

/-! ## Frames -/

/-- Nothing outside of a paste spells the start marker. -/
def Apart (element : Element) : Prop :=
  ∀ rest k, k < element.text.length → ¬ BRACKETED_PASTE_START <+: (element.text ++ rest).drop k

variable {k : Nat} {text : JsString}

/-- Where a list starts with an escape. -/
theorem escape_of_start (h : BRACKETED_PASTE_START <+: text.drop k) : text[k]? = some ESC := by
  obtain ⟨rest, hrest⟩ := h
  rw [← Nat.add_zero k, ← getElem?_drop, ← hrest]
  rfl

theorem Framed.apart (h : Framed text) (hne : text ≠ BRACKETED_PASTE_START) (rest : JsString) (hk : k < text.length) :
    ¬ BRACKETED_PASTE_START <+: (text ++ rest).drop k := by
  intro hp
  have hesc := escape_of_start hp
  rw [getElem?_append_left hk] at hesc
  rw [drop_append_of_le_length hk.le] at hp
  obtain rfl | hpos := Nat.eq_zero_or_pos k
  · rw [drop_zero] at hp
    obtain hshort | hlong := prefix_or_prefix_of_prefix hp (prefix_append text rest)
    · have hlt : BRACKETED_PASTE_START.length < text.length :=
        lt_of_le_of_ne hshort.length_le fun heq => hne (hshort.eq_of_length heq).symm
      have hpart := h.parts _ framed_start.length_pos hlt
      rw [← prefix_iff_eq_take.mp hshort, framed_start.whole] at hpart
      cases hpart
    · have hlt : text.length < BRACKETED_PASTE_START.length :=
        lt_of_le_of_ne hlong.length_le fun heq => hne (hlong.eq_of_length heq)
      have hpart := framed_start.parts _ h.length_pos hlt
      rw [← prefix_iff_eq_take.mp hlong, h.whole] at hpart
      cases hpart
  · rw [h.inner k hpos hesc] at hp
    simp [ST, BRACKETED_PASTE_START] at hp

variable {e : Element}

theorem apart_of_valid (h : e.Valid) (hpaste : e.isPaste = false) : Apart e := by
  intro rest k hk
  cases e with
  | plain u =>
    obtain rfl : k = 0 := by simpa [Element.text] using hk
    intro hp
    have hesc := escape_of_start hp
    exact h (by simpa [Element.text] using hesc)
  | sequence text => exact h.1.framed.apart h.2 rest hk
  | paste content => cases hpaste

variable {p : JsString}

variable {frame : JsString}

/-- A proper part of a frame does not hold the start marker either. -/
theorem Framed.partial_apart (h : Framed frame) (hp : p <+: frame) (hne : p ≠ frame)
    (hk : k < p.length) : ¬ BRACKETED_PASTE_START <+: p.drop k := by
  intro hstart
  have hlt : p.length < frame.length := lt_of_le_of_ne hp.length_le fun heq => hne (hp.eq_of_length heq)
  obtain rfl | hpos := Nat.eq_zero_or_pos k
  · rw [drop_zero] at hstart
    have hpart := h.parts _ framed_start.length_pos (hstart.length_le.trans_lt hlt)
    rw [← prefix_iff_eq_take.mp (hstart.trans hp), framed_start.whole] at hpart
    cases hpart
  · have hesc := escape_of_start hstart
    obtain ⟨more, rfl⟩ := hp
    have hinner := h.inner k hpos (by rwa [getElem?_append_left hk])
    rw [drop_append_of_le_length hk.le] at hinner
    have hlen := hstart.length_le.trans (prefix_append _ more).length_le
    rw [hinner] at hlen
    exact absurd hlen (by decide)

theorem Framed.partial_end (h : Framed frame) (hp : p <+: frame) (hne : p ≠ frame) :
    sequenceEnd p = none := by
  have hlt : p.length < frame.length := lt_of_le_of_ne hp.length_le fun heq => hne (hp.eq_of_length heq)
  refine sequenceEnd_none fun k hk hle => ?_
  rw [prefix_iff_eq_take.mp hp, take_take, Nat.min_eq_left hle]
  exact h.parts k hk (by omega)

/-- A proper part of an element's frame. -/
def PartOf (p : JsString) (e : Element) : Prop := p <+: e.frame ∧ p ≠ e.frame

theorem framed_of_valid (h : e.Valid) : (∃ u, e = .plain u) ∨ Framed e.frame := by
  cases e with
  | plain u => exact .inl ⟨u, rfl⟩
  | sequence text => exact .inr h.1.framed
  | paste content => exact .inr framed_start

theorem PartOf.nil_of_plain {u : UInt16} (h : PartOf p (.plain u)) : p = [] := by
  obtain ⟨hp, hne⟩ := h
  rw [Element.frame] at hp hne
  cases p with
  | nil => rfl
  | cons v p =>
    obtain ⟨rfl, hnil⟩ := cons_prefix_cons.mp hp
    rw [prefix_nil.mp hnil] at hne
    exact absurd rfl hne

theorem PartOf.not_start (he : e.Valid) (h : PartOf p e) (hk : k < p.length) :
    ¬ BRACKETED_PASTE_START <+: p.drop k := by
  obtain ⟨u, rfl⟩ | hframed := framed_of_valid he
  · rw [h.nil_of_plain] at hk
    exact absurd hk (Nat.not_lt_zero k)
  · exact hframed.partial_apart h.1 h.2 hk

/-- A part of an element is left over. -/
theorem PartOf.extract (he : e.Valid) (h : PartOf p e) : extractCompleteSequences p = ([], p) := by
  cases p with
  | nil => rfl
  | cons u p =>
    obtain ⟨v, rfl⟩ | hframed := framed_of_valid he
    · cases h.nil_of_plain
    · have hend := hframed.partial_end h.1 h.2
      obtain ⟨rest, hrest⟩ := hframed.opens
      have hu : u = ESC := by
        have hp := h.1
        rw [← hrest] at hp
        exact (cons_prefix_cons.mp hp).1
      subst hu
      exact extract_unfinished hend

/-! ## Text outside of pastes -/

variable {done : List Element}

/-- The text of elements without a paste does not hold the start marker. -/
theorem render_apart (hval : ∀ e ∈ done, e.Valid) (hpaste : ∀ e ∈ done, e.isPaste = false) (rest : JsString)
    (hk : k < (render done).length) :
    ¬ BRACKETED_PASTE_START <+: (render done ++ rest).drop k := by
  induction done generalizing k with
  | nil => exact absurd hk (Nat.not_lt_zero k)
  | cons e done ih =>
    have hrest (k : Nat) := ih (fun e he => hval e (mem_cons_of_mem _ he))
      (fun e he => hpaste e (mem_cons_of_mem _ he)) (k := k)
    have hapart := apart_of_valid (hval e mem_cons_self) (hpaste e mem_cons_self)
    rw [render_cons] at hk ⊢
    rw [append_assoc]
    by_cases hlt : k < e.text.length
    · exact hapart _ k hlt
    · rw [drop_append, drop_of_length_le (by omega), nil_append]
      rw [length_append] at hk
      exact hrest _ (by omega)

/-- Extraction takes the elements one by one. -/
theorem extract_render (hval : ∀ e ∈ done, e.Valid) (hpaste : ∀ e ∈ done, e.isPaste = false) (rest : JsString) :
    extractCompleteSequences (render done ++ rest) =
      (done.map Element.text ++ (extractCompleteSequences rest).1, (extractCompleteSequences rest).2) := by
  induction done with
  | nil => rfl
  | cons e done ih =>
    have hrest := ih (fun e he => hval e (mem_cons_of_mem _ he))
      (fun e he => hpaste e (mem_cons_of_mem _ he))
    have he := hval e mem_cons_self
    rw [render_cons, append_assoc, map_cons, cons_append]
    cases e with
    | plain u =>
      rw [Element.text, cons_append, nil_append, extract_plain he, hrest]
    | sequence text =>
      rw [Element.text, extract_sequence he.1.framed.toMinimal fun hlone => he.1.framed.single hlone.1, hrest]
    | paste content => exact absurd (hpaste _ mem_cons_self) (by simp [Element.isPaste])

variable {previous : Option Element} {b : StdinBuffer}

/-- Emission of the elements' texts, with the report of the last one pending. -/
theorem emitSequences_render (hval : ∀ e ∈ done, e.Valid) (hpaste : ∀ e ∈ done, e.isPaste = false)
    (hpending : b.pendingKittyPrintableCodepoint = reported previous) :
    b.emitSequences (done.map Element.text) =
      ({ b with pendingKittyPrintableCodepoint := reported (lastOf previous done) }, expected previous done) := by
  induction done generalizing b previous with
  | nil => rw [map_nil, emitSequences, lastOf, foldl_nil, ← hpending]; rfl
  | cons e done ih =>
    have hrest {b : StdinBuffer} (previous : Option Element)
        (hpending : b.pendingKittyPrintableCodepoint = reported previous) :
        b.emitSequences (done.map Element.text) =
          ({ b with pendingKittyPrintableCodepoint := reported (lastOf previous done) }, expected previous done) :=
      ih (fun e he => hval e (mem_cons_of_mem _ he))
        (fun e he => hpaste e (mem_cons_of_mem _ he)) hpending
    rw [map_cons, emitSequences]
    cases e with
    | plain u =>
      by_cases hown : reported previous = some u.toNat
      · have hemit : b.emitDataSequence [u] = ({ b with pendingKittyPrintableCodepoint := none }, []) := by
          rw [emitDataSequence, if_pos ⟨by simp [rawCodepoint], by rw [hpending, hown]; rfl⟩]
        rw [Element.text, hemit]
        rw [hrest (some (.plain u)) rfl, expected, if_pos hown]
        rfl
      · have hemit : b.emitDataSequence [u] = ({ b with pendingKittyPrintableCodepoint := none }, [.data [u]]) := by
          rw [emitDataSequence, if_neg fun h => hown (by rw [← hpending, ← h.2]; rfl)]
          simp [parseUnmodifiedKittyPrintableCodepoint]
        rw [Element.text, hemit]
        rw [hrest (some (.plain u)) rfl, expected, if_neg hown]
        rfl
    | sequence text =>
      have hlong := (hval _ mem_cons_self).1.framed.long
      have hraw : rawCodepoint text = none := by
        match text, hlong with
        | _ :: _ :: _, _ => rfl
      rw [Element.text, emitDataSequence, if_neg fun h => h.1 hraw]
      rw [hrest (some (.sequence text)) rfl, expected]
      rfl
    | paste content => exact absurd (hpaste _ mem_cons_self) (by simp [Element.isPaste])

/-! ## Positions -/

/-- Nothing of the next element, or a proper part of its frame. -/
def PartOfNext (p : JsString) (es : List Element) : Prop := p = [] ∨ ∃ e rest, es = e :: rest ∧ PartOf p e

/-- Where the buffer stands before the remaining elements: it has the part `p` of the next one. -/
inductive At (previous : Option Element) : List Element → JsString → StdinBuffer → Prop where
  | outside {es : List Element} {p : JsString} {b : StdinBuffer} : PartOfNext p es → b.pasteMode = false →
      b.buffer = p → b.pasteBuffer = [] → b.pendingKittyPrintableCodepoint = reported previous → At previous es p b
  | inside {content : JsString} {es : List Element} {p : JsString} {b : StdinBuffer} : b.pasteMode = true →
      b.buffer = [] → p = BRACKETED_PASTE_START ++ b.pasteBuffer →
        b.pasteBuffer <+: content ++ BRACKETED_PASTE_END → b.pasteBuffer ≠ content ++ BRACKETED_PASTE_END →
          At previous (.paste content :: es) p b

/-- Some elements are emitted, and the buffer stands before the others. -/
def Advances (previous : Option Element) (es : List Element) (b : StdinBuffer) (events : List Event)
    (rest more : JsString) : Prop :=
  ∃ done es' p, es = done ++ es' ∧ At (lastOf previous done) es' p b ∧ events = expected previous done ∧
    p ++ (rest ++ more) = render es' ∧ (rest ≠ [] → p = [])

variable {es : List Element} {more : JsString}

theorem Advances.after {events : List Event} {rest : JsString}
    (h : Advances (lastOf previous done) es b events rest more) :
    Advances previous (done ++ es) b (expected previous done ++ events) rest more := by
  obtain ⟨others, es', p, rfl, hat, rfl, htext, hrest⟩ := h
  refine ⟨done ++ others, es', p, (append_assoc _ _ _).symm, ?_, ?_, htext, hrest⟩
  · rwa [lastOf_append]
  · rw [expected_append]

/-! ## Pastes -/

variable {content : JsString}

/-- The end marker first occurs where the content ends. -/
theorem end_apart (h : ¬ BRACKETED_PASTE_END <:+: content) (rest : JsString)
    (hk : k < content.length) :
    ¬ BRACKETED_PASTE_END <+: (content ++ (BRACKETED_PASTE_END ++ rest)).drop k := by
  intro hp
  rw [drop_append_of_le_length hk.le] at hp
  have hne : content.drop k ≠ [] := by simpa using hk
  have hin : ESC :: [91, 50, 48, 49, 126] <+: content.drop k := prefix_of_straddle (by decide) hne hp
  exact h (hin.isInfix.trans (drop_suffix k content).isInfix)

/-- In paste mode, the end of the paste is found as soon as it is there. -/
theorem closePaste_at (hval : ¬ BRACKETED_PASTE_END <:+: content) (hmode : b.pasteMode = true)
    (hbuf : b.buffer = []) (h : b.pasteBuffer ++ more = content ++ (BRACKETED_PASTE_END ++ render es)) :
    Advances previous (.paste content :: es) (closePaste b).1 (closePaste b).2.1 (closePaste b).2.2 more := by
  have hwhole : content ++ BRACKETED_PASTE_END <+: b.pasteBuffer ++ more := ⟨render es, by rw [h, append_assoc]⟩
  by_cases hclosed : content ++ BRACKETED_PASTE_END <+: b.pasteBuffer
  · obtain ⟨rest, hrest⟩ := hclosed
    rw [append_assoc] at hrest
    have hfound : indexOf? BRACKETED_PASTE_END b.pasteBuffer = some content.length := by
      rw [← hrest, indexOf?_append fun k hk => end_apart hval rest hk,
        indexOf?_here (prefix_append _ _), Option.map_some, Nat.zero_add]
    have hclose : closePaste b =
        ({ b with pasteMode := false, pasteBuffer := [], pendingKittyPrintableCodepoint := none },
          [.paste content], rest) := by
      rw [closePaste, hfound]
      dsimp only
      rw [← hrest, take_left, ← drop_drop, drop_left, drop_left]
    rw [← hrest, append_assoc, append_assoc, append_cancel_left_eq, append_cancel_left_eq] at h
    rw [hclose]
    exact ⟨[.paste content], es, [], rfl, .outside (.inl rfl) rfl hbuf rfl rfl, rfl, h, fun _ => rfl⟩
  · have hp : b.pasteBuffer <+: content ++ BRACKETED_PASTE_END :=
      (List.prefix_or_prefix_of_prefix (prefix_append _ more) hwhole).resolve_right hclosed
    have hne : b.pasteBuffer ≠ content ++ BRACKETED_PASTE_END := fun heq => hclosed (heq ▸ prefix_rfl)
    have hmiss : indexOf? BRACKETED_PASTE_END b.pasteBuffer = none := by
      refine indexOf?_none (by decide) fun k hk hend => ?_
      obtain ⟨missing, hmiss⟩ := hp
      have hdrop : b.pasteBuffer.drop k ++ missing = (content ++ BRACKETED_PASTE_END).drop k := by
        rw [← hmiss, drop_append_of_le_length hk.le]
      by_cases hlt : k < content.length
      · have hat := end_apart hval [] hlt
        rw [append_nil, ← hdrop] at hat
        exact hat (hend.trans (prefix_append _ _))
      · have hpast : content.length ≤ k := by omega
        rw [drop_append, drop_of_length_le hpast, nil_append] at hdrop
        have hlen := congrArg length hdrop
        have hle := hend.length_le
        rw [length_append, length_drop, length_drop] at hlen
        rw [length_drop] at hle
        have hnone : missing = [] := eq_nil_of_length_eq_zero (by omega)
        rw [hnone, append_nil] at hmiss
        exact hne hmiss
    have hclose : closePaste b = (b, [], []) := by rw [closePaste, hmiss]
    rw [hclose]
    refine ⟨[], .paste content :: es, _, rfl, .inside hmode hbuf rfl hp hne, rfl, ?_, fun h => absurd rfl h⟩
    rw [nil_append, append_assoc, h, render_cons, Element.text, append_assoc, append_assoc]

/-! ## Passes and runs -/

/-- A text that the elements begin with, up to the first paste. -/
theorem split_prefix (h : text ++ more = render es) :
    ∃ done es' p, es = done ++ es' ∧ text = render done ++ p ∧ (∀ e ∈ done, e.isPaste = false) ∧
      ((PartOfNext p es' ∧ p ++ more = render es') ∨ ∃ content rest q, es' = .paste content :: rest ∧
        p = BRACKETED_PASTE_START ++ q ∧ q ++ more = content ++ (BRACKETED_PASTE_END ++ render rest)) := by
  induction es generalizing text with
  | nil =>
    rw [render_nil, append_eq_nil_iff] at h
    obtain ⟨rfl, rfl⟩ := h
    exact ⟨[], [], [], rfl, rfl, by simp, .inl ⟨.inl rfl, rfl⟩⟩
  | cons e es ih =>
    have hframe : e.frame <+: text ++ more := by
      rw [h, render_cons]
      cases e with
      | plain | sequence => exact prefix_append _ _
      | paste content => exact (prefix_append _ _).trans (prefix_append _ _)
    by_cases hpart : e.frame <+: text
    · obtain ⟨text', rfl⟩ := hpart
      have hrest (hpaste : e.isPaste = false) (hsame : e.frame = e.text) :
          ∃ done es' p, e :: es = done ++ es' ∧ e.frame ++ text' = render done ++ p ∧
            (∀ e ∈ done, e.isPaste = false) ∧ ((PartOfNext p es' ∧ p ++ more = render es') ∨
              ∃ content rest q, es' = .paste content :: rest ∧ p = BRACKETED_PASTE_START ++ q ∧
                q ++ more = content ++ (BRACKETED_PASTE_END ++ render rest)) := by
        rw [append_assoc, hsame, render_cons, append_cancel_left_eq] at h
        obtain ⟨done, es', p, rfl, rfl, hdone, hp⟩ := ih h
        refine ⟨e :: done, es', p, rfl, by rw [hsame, render_cons, append_assoc], ?_, hp⟩
        intro e' he'
        obtain rfl | he' := mem_cons.mp he'
        · exact hpaste
        · exact hdone e' he'
      cases e with
      | plain | sequence => exact hrest rfl rfl
      | paste content =>
        rw [render_cons, Element.frame, Element.text, append_assoc, append_assoc,
          append_cancel_left_eq, append_assoc] at h
        exact ⟨[], _, _, rfl, rfl, by simp, .inr ⟨content, es, text', rfl, rfl, h⟩⟩
    · refine ⟨[], e :: es, text, rfl, rfl, by simp, .inl ⟨.inr ⟨e, es, rfl, ?_, ?_⟩, h⟩⟩
      · exact (List.prefix_or_prefix_of_prefix (prefix_append text more) hframe).resolve_right hpart
      · exact fun heq => hpart (heq ▸ prefix_rfl)

variable (hes : ∀ e ∈ es, e.Valid)
include hes

theorem PartOfNext.extract (h : PartOfNext p es) :
    extractCompleteSequences p = ([], p) := by
  obtain rfl | ⟨e, rest, rfl, hp⟩ := h
  · rfl
  · exact hp.extract (hes e mem_cons_self)

theorem PartOfNext.not_start (h : PartOfNext p es) (hk : k < p.length) :
    ¬ BRACKETED_PASTE_START <+: p.drop k := by
  obtain rfl | ⟨e, rest, rfl, hp⟩ := h
  · exact absurd hk (Nat.not_lt_zero k)
  · exact hp.not_start (hes e mem_cons_self) hk

variable (hat : At previous es p b)
include hat

/-- One pass emits what is complete, up to the end of the first paste. -/
theorem pass_at {str : JsString} (hstr : str ≠ [])
    (h : p ++ (str ++ more) = render es) :
    Advances previous es (b.pass str).1 (b.pass str).2.1 (b.pass str).2.2 more := by
  cases hat with
  | inside hmode hbuf hp hpart hne =>
    rename_i content es
    have hpass : b.pass str =
        closePaste { b with timeout := false, buffer := [], pasteBuffer := b.pasteBuffer ++ str } := by
      rw [pass, if_neg (fun h => hstr h.1), if_pos hmode, hbuf, nil_append]
    rw [hpass]
    refine closePaste_at (b := { b with timeout := false, buffer := [], pasteBuffer := b.pasteBuffer ++ str })
      (hes _ mem_cons_self) hmode rfl ?_
    rw [hp, render_cons, Element.text, append_assoc, append_assoc, append_assoc, append_cancel_left_eq] at h
    rw [append_assoc]
    exact h
  | outside hpart hmode hbuf hpasted hpending =>
    rw [← append_assoc, ← hbuf] at h
    obtain ⟨done, es', p, rfl, htext, hdone, hp⟩ := split_prefix h
    have hval : ∀ e ∈ done, e.Valid := fun e he => hes e (mem_append_left _ he)
    have hval' : ∀ e ∈ es', e.Valid := fun e he => hes e (mem_append_right _ he)
    rw [pass, if_neg (fun h => hstr h.1), if_neg (by simp [hmode])]
    dsimp only
    rw [htext]
    obtain ⟨hp, hmore⟩ | ⟨content, rest, q, rfl, rfl, hq⟩ := hp
    · have hmiss : indexOf? BRACKETED_PASTE_START (render done ++ p) = none := by
        rw [indexOf?_append fun k hk => render_apart hval hdone p hk,
          indexOf?_none (by decide) fun k hk => hp.not_start hval' hk]
        rfl
      rw [hmiss]
      rw [extract_render hval hdone, hp.extract hval', append_nil,
        emitSequences_render hval hdone (b := { b with timeout := false, buffer := p }) hpending]
      exact ⟨done, es', p, rfl, .outside hp hmode rfl hpasted rfl, rfl, by simpa using hmore, fun h => absurd rfl h⟩
    · have hfound : indexOf? BRACKETED_PASTE_START (render done ++ (BRACKETED_PASTE_START ++ q)) =
          some (render done).length := by
        rw [indexOf?_append fun k hk => render_apart hval hdone _ hk, indexOf?_here (prefix_append _ _),
          Option.map_some, Nat.zero_add]
      have hextract : extractCompleteSequences (render done) = (done.map Element.text, []) := by
        simpa using extract_render hval hdone []
      rw [hfound]
      dsimp only
      rw [take_left, ← drop_drop, drop_left, drop_left, hextract]
      rw [emitSequences_render hval hdone
        (b := { b with timeout := false, buffer := render done ++ (BRACKETED_PASTE_START ++ q) }) hpending]
      exact Advances.after (closePaste_at (hval' _ mem_cons_self) rfl rfl hq)

theorem processLoop_at {fuel : Nat} {str : JsString}
    (hstr : str ≠ []) (h : p ++ (str ++ more) = render es) (hfuel : (b.retained ++ str).length < fuel) :
    Advances previous es (processLoop fuel b str).1 (processLoop fuel b str).2 [] more := by
  induction fuel generalizing previous es p b str with
  | zero => omega
  | succ fuel ih =>
    obtain ⟨done, es', p', rfl, hat', hevents, htext, hrest⟩ := pass_at hes hat hstr h
    rw [processLoop]
    by_cases hnil : (b.pass str).2.2 = []
    · rw [if_pos hnil]
      rw [hnil] at htext
      exact ⟨done, es', p', rfl, hat', hevents, htext, fun h => absurd rfl h⟩
    · have hp := hrest hnil
      rw [hp] at hat' htext
      have hret : (b.pass str).1.retained = [] := by
        cases hat' with
        | outside _ _ hbuf hpasted _ => rw [retained, hbuf, hpasted, nil_append]
        | inside _ _ hmarker _ _ => cases hmarker
      have hshort := (pass_shorter b str).resolve_left hnil
      have hnext := ih (fun e he => hes e (mem_append_right _ he)) hat' hnil htext
        (by rw [hret, nil_append]; omega)
      rw [if_neg hnil, hevents]
      exact hnext.after

/-- A chunk advances the buffer over the elements that it completes. -/
theorem process_at {data : JsString} (hdata : data ≠ [])
    (h : p ++ (data ++ more) = render es) :
    Advances previous es (b.process data).1 (b.process data).2 [] more :=
  processLoop_at hes hat hdata h (Nat.lt_succ_self _)

omit hat

omit hes

theorem run_at {chunks : List JsString} (hchunks : ∀ data ∈ chunks, data ≠ []) (hes : ∀ e ∈ es, e.Valid)
    (hat : At previous es p b) (h : p ++ (chunks.flatten ++ more) = render es) :
    Advances previous es (b.run (chunks.map .chunk)).1 (b.run (chunks.map .chunk)).2 [] more := by
  induction chunks generalizing previous es p b with
  | nil => exact ⟨[], es, p, rfl, hat, rfl, h, fun h => absurd rfl h⟩
  | cons data chunks ih =>
    rw [flatten_cons, append_assoc] at h
    obtain ⟨done, es', p', rfl, hat', hevents, htext, -⟩ := process_at hes hat (hchunks data mem_cons_self) h
    have hrest := ih (fun data hmem => hchunks data (mem_cons_of_mem _ hmem))
      (fun e he => hes e (mem_append_right _ he)) hat' htext
    rw [map_cons, run, step, hevents]
    exact hrest.after

/-- A part of the next element is shorter than the element. -/
theorem At.elements_nil (hes : ∀ e ∈ es, e.Valid) (hat : At previous es p b) (h : p = render es) : es = [] := by
  cases hat with
  | outside hpart _ _ _ _ =>
    cases es with
    | nil => rfl
    | cons e es =>
      have hlt : p.length < e.text.length := by
        obtain rfl | ⟨e', rest, heq, hp, hne⟩ := hpart
        · have hne : e.text ≠ [] := by
            cases e with
            | plain | paste => exact cons_ne_nil _ _
            | sequence text =>
              have hlong := (hes _ mem_cons_self).1.framed.length_pos
              exact ne_nil_of_length_pos hlong
          exact length_pos_of_ne_nil hne
        · obtain ⟨rfl, rfl⟩ := cons.inj heq
          have hframe : e.frame.length ≤ e.text.length := by
            cases e with
            | plain | sequence => exact le_rfl
            | paste content => exact (prefix_append _ _).length_le
          exact (lt_of_le_of_ne hp.length_le fun heq => hne (hp.eq_of_length heq)).trans_le hframe
      rw [h, render_cons, length_append] at hlt
      omega
  | inside _ _ hmarker hp hne =>
    rename_i content es
    rw [hmarker, render_cons, Element.text, append_assoc, append_cancel_left_eq] at h
    have hlen := congrArg length h
    have hle := hp.length_le
    rw [length_append] at hlen
    exact absurd (hp.eq_of_length (by omega)) hne

/-- However the input is cut, there is one event for each element, apart from characters directly
after their own key report, and nothing is left. -/
theorem run_chunks (elements : List Element) (hvalid : ∀ e ∈ elements, e.Valid) (chunks : List JsString)
    (hchunks : ∀ data ∈ chunks, data ≠ []) (hinput : chunks.flatten = render elements) :
    (run {} (chunks.map .chunk)).2 = expected none elements ∧
      (elements ≠ [] → (process {} (render elements)).2 = (run {} (chunks.map .chunk)).2) ∧
      (run {} (chunks.map .chunk)).1.buffer = [] ∧ (run {} (chunks.map .chunk)).1.pasteMode = false ∧
      (run {} (chunks.map .chunk)).1.pasteBuffer = [] := by
  have hstart : At none elements [] {} := .outside (.inl rfl) rfl rfl rfl rfl
  have hends {b : StdinBuffer} {events : List Event} (h : Advances none elements b events [] []) :
      events = expected none elements ∧ b.buffer = [] ∧ b.pasteMode = false ∧ b.pasteBuffer = [] := by
    obtain ⟨done, es, p, rfl, hat, hevents, htext, -⟩ := h
    rw [List.append_nil, List.append_nil] at htext
    have hnil := hat.elements_nil (fun e he => hvalid e (List.mem_append_right _ he)) htext
    rw [hnil] at hat htext ⊢
    rw [List.append_nil]
    cases hat with
    | outside _ hmode hbuffer hpasted _ => exact ⟨hevents, hbuffer.trans htext, hmode, hpasted⟩
  obtain ⟨hevents, hbuffer, hmode, hpasted⟩ := hends
    (run_at hchunks hvalid hstart
      (show [] ++ (chunks.flatten ++ []) = render elements by
        rw [List.append_nil, List.nil_append, hinput]))
  refine ⟨hevents, fun hne => ?_, hbuffer, hmode, hpasted⟩
  have hinput : render elements ≠ [] := fun hnil => hne (hstart.elements_nil hvalid hnil.symm)
  rw [hevents]
  exact (hends (process_at hvalid hstart hinput
    (show [] ++ (render elements ++ []) = render elements by simp))).1

/-- A key report, the key itself twice, and a paste that is cut within both of its markers. -/
theorem run_chunks_cut : (run {} ([[ESC, 91, 57, 55], [117, 97, 97] ++ BRACKETED_PASTE_START.take 3,
      BRACKETED_PASTE_START.drop 3 ++ [ESC] ++ BRACKETED_PASTE_END.take 2, BRACKETED_PASTE_END.drop 2].map
        .chunk)).2 = [.data [ESC, 91, 57, 55, 117], .data [97], .paste [ESC]] := by
  have hevents := (run_chunks
    [.sequence [ESC, 91, 57, 55, 117], .plain 97, .plain 97, .paste [ESC]] ?_
    [[ESC, 91, 57, 55], [117, 97, 97] ++ BRACKETED_PASTE_START.take 3,
      BRACKETED_PASTE_START.drop 3 ++ [ESC] ++ BRACKETED_PASTE_END.take 2, BRACKETED_PASTE_END.drop 2]
    (by decide) (by decide)).1
  · exact hevents.trans (by decide)
  · intro e he
    simp only [List.mem_cons, List.not_mem_nil, or_false] at he
    obtain rfl | rfl | rfl | rfl := he
    · exact ⟨@IsSequence.csi [57, 55] 117 (by decide) (by decide) (by decide) (fun h => (by cases h)), by decide⟩
    · exact (by decide : (97 : UInt16) ≠ ESC)
    · exact (by decide : (97 : UInt16) ≠ ESC)
    · exact fun h => absurd h.length_le (by decide)

/-- What is not taken for one element: `ESC[<u`, `ESC[M`, the CSI sequence that starts a paste, a
character of two units, and no input at all. -/
theorem process_single_element :
    process {} [ESC, 91, 60, 117] = ({ buffer := [ESC, 91, 60, 117], timeout := true }, []) ∧
      process {} [ESC, 91, 77] = ({ buffer := [ESC, 91, 77], timeout := true }, []) ∧
      process {} BRACKETED_PASTE_START = ({ pasteMode := true }, []) ∧
      process {} [0xd83d, 0xde00] = ({}, [.data [0xd83d], .data [0xde00]]) ∧
      process {} [] = ({}, [.data []]) := by
  decide

end Shuvpi.StdinBuffer
