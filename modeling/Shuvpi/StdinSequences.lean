import Shuvpi.StdinBuffer

/-!
# Complete escape sequences

The escape sequences of a terminal, each described by its own shape. Every one of them is
complete only as a whole, and holds a second escape at most as the start of its terminator.
-/
namespace Shuvpi.StdinBuffer

open Occurrence
open List Option

/-- The shapes that are taken for one sequence. -/
inductive IsSequence : JsString → Prop where
  /-- `ESC[`, a body and a final byte; `ESC[<` and `ESC[M` are mouse reports. -/
  | csi {body : JsString} {final : UInt16} : (∀ u ∈ body, u ≠ ESC ∧ isFinalByte u = false) →
      isFinalByte final = true → body.head? ≠ some 60 → (body = [] → final ≠ 77) →
        IsSequence (ESC :: 91 :: (body ++ [final]))
  | sgrMouse {button x y : JsString} {final : UInt16} : isDigits button = true → isDigits x = true →
      isDigits y = true → final = 77 ∨ final = 109 →
        IsSequence (ESC :: 91 :: (60 :: (button ++ 59 :: (x ++ 59 :: y)) ++ [final]))
  | legacyMouse {button x y : UInt16} : button ≠ ESC → x ≠ ESC → y ≠ ESC → IsSequence [ESC, 91, 77, button, x, y]
  | ss3 {u : UInt16} : u ≠ ESC → IsSequence [ESC, 79, u]
  | osc {body : JsString} : (∀ u ∈ body, u ≠ ESC ∧ u ≠ 7) → IsSequence (ESC :: 93 :: (body ++ ST))
  | oscBell {body : JsString} : (∀ u ∈ body, u ≠ ESC ∧ u ≠ 7) → IsSequence (ESC :: 93 :: (body ++ [7]))
  | dcs {body : JsString} : (∀ u ∈ body, u ≠ ESC) → IsSequence (ESC :: 80 :: (body ++ ST))
  | apc {body : JsString} : (∀ u ∈ body, u ≠ ESC) → IsSequence (ESC :: 95 :: (body ++ ST))
  | metaKey {u : UInt16} : u ≠ ESC → opensSequence (some u) = false → IsSequence [ESC, u]

/-- A sequence that can be told from everything around it. -/
structure Framed (sequence : JsString) : Prop extends Minimal sequence where
  long : 2 ≤ sequence.length
  single : sequence ≠ [ESC, ESC]
  inner : ∀ k, 0 < k → sequence[k]? = some ESC → sequence.drop k = ST

variable {tail : JsString} {intro : UInt16}

/-- The parts of a sequence of at least two units, counted from the third. -/
theorem parts_of_tail (h : ∀ m, m < tail.length → isCompleteSequence (ESC :: intro :: tail.take m) = .incomplete) :
    ∀ k, 1 ≤ k → k < (ESC :: intro :: tail).length →
      isCompleteSequence ((ESC :: intro :: tail).take k) = .incomplete := by
  intro k hk hlt
  match k, hk with
  | 1, _ => rfl
  | m + 2, _ =>
    rw [length_cons, length_cons] at hlt
    exact h m (by omega)

/-- No second escape at all. -/
theorem inner_of_no_escape {first : UInt16} (h : ESC ∉ tail) :
    ∀ k, 0 < k → (first :: tail)[k]? = some ESC → (first :: tail).drop k = ST := by
  intro k hk hat
  obtain ⟨m, rfl⟩ : ∃ m, k = m + 1 := ⟨k - 1, by omega⟩
  rw [getElem?_cons_succ] at hat
  exact absurd (mem_of_getElem? hat) h

/-- A second escape only in the terminator. -/
theorem inner_of_terminated {first : UInt16} {body : JsString} (h : ESC ∉ body) :
    ∀ k, 0 < k → (first :: (body ++ ST))[k]? = some ESC → (first :: (body ++ ST)).drop k = ST := by
  intro k hk hat
  obtain ⟨m, rfl⟩ : ∃ m, k = m + 1 := ⟨k - 1, by omega⟩
  rw [getElem?_cons_succ] at hat
  rw [drop_succ_cons]
  obtain hlt | rfl | hgt := Nat.lt_trichotomy m body.length
  · rw [getElem?_append_left hlt] at hat
    exact absurd (mem_of_getElem? hat) h
  · exact drop_left
  · rw [getElem?_append_right hgt.le] at hat
    match hm : m - body.length, hat with
    | 0, _ => omega
    | 1, hat => exact absurd hat (by decide)
    | _ + 2, hat => simp [ST] at hat

/-! ## CSI -/

theorem isCompleteSequence_csi {payload : JsString} (hmouse : ¬ [77] <+: payload) (hne : payload ≠ []) :
    isCompleteSequence (ESC :: 91 :: payload) =
      if (payload.getLast?.map isFinalByte).getD false then
        if [60] <+: payload then
          if mouseMatch payload then .complete
          else if endsMouse payload && mouseParts payload then .complete
          else .incomplete
        else .complete
      else .incomplete := by
  have hlong : ¬ (ESC :: 91 :: payload).length < 3 := by
    have := length_pos_of_ne_nil hne
    rw [length_cons, length_cons]
    omega
  rw [isCompleteSequence, if_neg (by simp), if_neg (by simp), drop_one, tail_cons,
    if_pos (by simp), if_neg (by simpa using hmouse), isCompleteCsiSequence, if_neg (by simp), if_neg hlong]
  rfl

theorem not_mouse_of_body {body : JsString} (h : ∀ u ∈ body, isFinalByte u = false) : ¬ [77] <+: body := by
  intro hp
  have hmem := h 77 (hp.subset (mem_singleton_self _))
  revert hmem
  decide

/-- A CSI sequence is incomplete before its final byte. -/
theorem csi_incomplete {body : JsString} (h : ∀ u ∈ body, isFinalByte u = false) :
    isCompleteSequence (ESC :: 91 :: body) = .incomplete := by
  obtain rfl | ⟨front, last, rfl⟩ := eq_nil_or_concat body
  · rfl
  · rw [concat_eq_append] at h ⊢
    rw [isCompleteSequence_csi (not_mouse_of_body h) (by simp), getLast?_concat, map_some, h last (by simp)]
    rfl

variable {final : UInt16}

/-- The frame of a CSI sequence whose body has neither an escape nor a final byte. -/
theorem framed_csi {body : JsString} (h : ∀ u ∈ body, u ≠ ESC ∧ isFinalByte u = false)
    (hfinal : isFinalByte final = true) (hwhole : isCompleteSequence (ESC :: 91 :: (body ++ [final])) = .complete) :
    Framed (ESC :: 91 :: (body ++ [final])) := by
  have hescape : ESC ∉ (91 : UInt16) :: (body ++ [final]) := by
    intro hmem
    rw [mem_cons, mem_append, mem_singleton] at hmem
    obtain hmem | hmem | hmem := hmem
    · exact absurd hmem (by decide)
    · exact (h ESC hmem).1 rfl
    · rw [← hmem] at hfinal
      exact absurd hfinal (by decide)
  refine ⟨⟨⟨_, rfl⟩, hwhole, parts_of_tail ?_⟩, by simp, by simp [ESC], inner_of_no_escape hescape⟩
  intro m hm
  rw [length_append, length_singleton] at hm
  rw [take_append_of_le_length (by omega)]
  exact csi_incomplete fun u hu => (h u (mem_of_mem_take hu)).2

theorem csi_complete {body : JsString} (h : ∀ u ∈ body, isFinalByte u = false) (hfinal : isFinalByte final = true)
    (hangle : body.head? ≠ some 60) (hmouse : body = [] → final ≠ 77) :
    isCompleteSequence (ESC :: 91 :: (body ++ [final])) = .complete := by
  have hnot : ¬ [77] <+: body ++ [final] ∧ ¬ [60] <+: body ++ [final] := by
    cases body with
    | nil =>
      have h60 : final ≠ 60 := by
        rintro rfl
        exact absurd hfinal (by decide)
      simpa [eq_comm] using ⟨hmouse rfl, h60⟩
    | cons u body =>
      have h77 : u ≠ 77 := by
        rintro rfl
        exact absurd (h 77 mem_cons_self) (by decide)
      have h60 : u ≠ 60 := by simpa using hangle
      simpa [eq_comm] using ⟨h77, h60⟩
  rw [isCompleteSequence_csi hnot.1 (by simp), getLast?_concat, map_some, hfinal, if_neg hnot.2]
  rfl

variable {u : UInt16}

theorem isDigit_of_isDigits {text : JsString} (h : isDigits text = true) (hu : u ∈ text) :
    48 ≤ u.toNat ∧ u.toNat ≤ 57 := by
  rw [isDigits, Bool.and_eq_true, List.all_eq_true] at h
  simpa [JsonText.isDigit] using h.2 u hu

theorem not_mem_of_isDigits {text : JsString} (h : isDigits text = true) : 59 ∉ text := by
  intro hmem
  exact absurd (isDigit_of_isDigits h hmem).2 (by decide)

variable {button x y : JsString}

theorem sgrMouse_complete (hbutton : isDigits button = true) (hx : isDigits x = true)
    (hy : isDigits y = true) (hfinal : final = 77 ∨ final = 109) :
    isCompleteSequence (ESC :: 91 :: (60 :: (button ++ 59 :: (x ++ 59 :: y)) ++ [final])) = .complete := by
  have hlast : isFinalByte final = true := by obtain rfl | rfl := hfinal <;> decide
  have hmatch : mouseMatch (60 :: (button ++ 59 :: (x ++ 59 :: y)) ++ [final]) = true := by
    have hends : endsMouse (60 :: (button ++ 59 :: (x ++ 59 :: y)) ++ [final]) = true := by
      rw [endsMouse, getLast?_concat]
      obtain rfl | rfl := hfinal <;> rfl
    have hparts : mouseParts (60 :: (button ++ 59 :: (x ++ 59 :: y)) ++ [final]) = true := by
      rw [mouseParts, cons_append, tail_cons, dropLast_concat,
        splitOn_append_cons_self_of_not_mem (not_mem_of_isDigits hbutton),
        splitOn_append_cons_self_of_not_mem (not_mem_of_isDigits hx),
        splitOn_eq_singleton (not_mem_of_isDigits hy)]
      simp [hbutton, hx, hy]
    rw [mouseMatch, hends, hparts]
    rfl
  rw [isCompleteSequence_csi (by simp) (by simp), getLast?_concat, map_some, hlast, hmatch, if_pos (by simp)]
  rfl

theorem framed_sgrMouse (hbutton : isDigits button = true) (hx : isDigits x = true)
    (hy : isDigits y = true) (hfinal : final = 77 ∨ final = 109) :
    Framed (ESC :: 91 :: (60 :: (button ++ 59 :: (x ++ 59 :: y)) ++ [final])) := by
  have hdigit {text : JsString} (h : isDigits text = true) {u : UInt16} (hu : u ∈ text) :
      u ≠ ESC ∧ isFinalByte u = false := by
    have hrange := isDigit_of_isDigits h hu
    refine ⟨?_, ?_⟩
    · rintro rfl
      exact absurd hrange.1 (by decide)
    · rw [isFinalByte, Bool.and_eq_false_iff]
      exact .inl (by simp; omega)
  refine framed_csi ?_ (by obtain rfl | rfl := hfinal <;> decide) (sgrMouse_complete hbutton hx hy hfinal)
  intro u hu
  rw [mem_cons, mem_append, mem_cons, mem_append, mem_cons] at hu
  obtain rfl | hu | rfl | hu | rfl | hu := hu
  · decide
  · exact hdigit hbutton hu
  · decide
  · exact hdigit hx hu
  · decide
  · exact hdigit hy hu

/-! ## Strings -/

/-- A string terminator does not end what holds no second escape. -/
theorem not_ST_suffix (hintro : intro ≠ ESC ∧ intro ≠ 92) (htail : ESC ∉ tail) : ¬ ST <:+ ESC :: intro :: tail := by
  intro h
  obtain heq | h := suffix_cons_iff.mp h
  · rw [ST, cons.injEq, cons.injEq] at heq
    exact hintro.2 heq.2.1.symm
  · have hmem : ESC ∈ intro :: tail := h.subset (by simp [ST])
    obtain heq | hmem := mem_cons.mp hmem
    · exact hintro.1 heq.symm
    · exact htail hmem

theorem not_ST_suffix_escape : ¬ ST <:+ ESC :: intro :: (tail ++ [ESC]) := by
  rintro ⟨front, h⟩
  have hlast := congrArg getLast? h
  rw [show ESC :: intro :: (tail ++ [ESC]) = (ESC :: intro :: tail) ++ [ESC] by simp, getLast?_concat,
    show front ++ ST = (front ++ [ESC]) ++ [92] by simp [ST], getLast?_concat] at hlast
  exact absurd hlast (by decide)

/-- A family of sequences that end with a string terminator. -/
theorem framed_string {body : JsString} (hintro : intro ≠ ESC ∧ intro ≠ 92)
    (hbody : ESC ∉ body)
    (hwhole : ∀ tail, ST <:+ ESC :: intro :: tail → isCompleteSequence (ESC :: intro :: tail) = .complete)
    (hpart : ∀ tail, ¬ ST <:+ ESC :: intro :: tail → (∀ u ∈ tail, u ∈ body ∨ u = ESC) →
      isCompleteSequence (ESC :: intro :: tail) = .incomplete) :
    Framed (ESC :: intro :: (body ++ ST)) := by
  have hend : ST <:+ ESC :: intro :: (body ++ ST) := ⟨ESC :: intro :: body, by simp⟩
  have hinner := @inner_of_terminated ESC (intro :: body) (by simp [hintro.1.symm, hbody])
  refine ⟨⟨⟨_, rfl⟩, hwhole _ hend, parts_of_tail ?_⟩, by simp, by simp [hintro.1], hinner⟩
  intro m hm
  obtain hle | rfl : m ≤ body.length ∨ m = body.length + 1 := by
    rw [length_append, show ST.length = 2 from rfl] at hm
    omega
  · rw [take_append_of_le_length hle]
    exact hpart _ (not_ST_suffix hintro fun hmem => hbody (mem_of_mem_take hmem))
      fun u hu => .inl (mem_of_mem_take hu)
  · have htake : (body ++ ST).take (body.length + 1) = body ++ [ESC] := by
      rw [take_length_add_append]
      rfl
    rw [htake]
    exact hpart _ not_ST_suffix_escape fun u hu => by simpa using hu

theorem isCompleteSequence_osc (tail : JsString) : isCompleteSequence (ESC :: 93 :: tail) =
      if ST <:+ ESC :: 93 :: tail ∨ [7] <:+ ESC :: 93 :: tail then .complete else .incomplete := by
  simp [isCompleteSequence, isCompleteOscSequence]

theorem isCompleteSequence_dcs (tail : JsString) :
    isCompleteSequence (ESC :: 80 :: tail) = if ST <:+ ESC :: 80 :: tail then .complete else .incomplete := by
  simp [isCompleteSequence, isCompleteDcsSequence]

theorem isCompleteSequence_apc (tail : JsString) :
    isCompleteSequence (ESC :: 95 :: tail) = if ST <:+ ESC :: 95 :: tail then .complete else .incomplete := by
  simp [isCompleteSequence, isCompleteApcSequence]

/-- A bell does not end what holds none. -/
theorem not_bell_suffix (h : 7 ∉ tail) : ¬ [7] <:+ ESC :: 93 :: tail := by
  intro hs
  have hmem : (7 : UInt16) ∈ ESC :: 93 :: tail := hs.subset (mem_singleton_self _)
  simp [ESC, h] at hmem

theorem framed_osc {body : JsString} (h : ∀ u ∈ body, u ≠ ESC ∧ u ≠ 7) :
    Framed (ESC :: 93 :: (body ++ ST)) := by
  refine framed_string (by decide) (fun hmem => (h ESC hmem).1 rfl) ?_ ?_
  · intro tail hs
    rw [isCompleteSequence_osc, if_pos (.inl hs)]
  · intro tail hs hmem
    have hbell : 7 ∉ tail := fun h7 => (hmem 7 h7).elim (fun h7 => (h 7 h7).2 rfl) (by decide)
    rw [isCompleteSequence_osc, if_neg (not_or.mpr ⟨hs, not_bell_suffix hbell⟩)]

theorem framed_oscBell {body : JsString} (h : ∀ u ∈ body, u ≠ ESC ∧ u ≠ 7) :
    Framed (ESC :: 93 :: (body ++ [7])) := by
  have hescape : ESC ∉ body := fun hmem => (h ESC hmem).1 rfl
  refine ⟨⟨⟨_, rfl⟩, ?_, parts_of_tail ?_⟩, by simp, by simp [ESC], inner_of_no_escape ?_⟩
  · rw [isCompleteSequence_osc, if_pos (.inr ⟨ESC :: 93 :: body, by simp⟩)]
  · intro m hm
    rw [length_append, length_singleton] at hm
    have hpart : ∀ u ∈ body.take m, u ∈ body := fun u hu => mem_of_mem_take hu
    rw [take_append_of_le_length (by omega), isCompleteSequence_osc, if_neg]
    exact not_or.mpr ⟨not_ST_suffix (by decide) fun hmem => hescape (hpart ESC hmem),
      not_bell_suffix fun hmem => (h 7 (hpart 7 hmem)).2 rfl⟩
  · simp [ESC] at hescape ⊢
    exact hescape

theorem framed_dcs {body : JsString} (h : ∀ u ∈ body, u ≠ ESC) : Framed (ESC :: 80 :: (body ++ ST)) :=
  framed_string (by decide) (fun hmem => h ESC hmem rfl)
    (fun tail hs => by rw [isCompleteSequence_dcs, if_pos hs])
    (fun tail hs _ => by rw [isCompleteSequence_dcs, if_neg hs])

theorem framed_apc {body : JsString} (h : ∀ u ∈ body, u ≠ ESC) : Framed (ESC :: 95 :: (body ++ ST)) :=
  framed_string (by decide) (fun hmem => h ESC hmem rfl)
    (fun tail hs => by rw [isCompleteSequence_apc, if_pos hs])
    (fun tail hs _ => by rw [isCompleteSequence_apc, if_neg hs])

/-! ## All sequences -/

theorem framed_legacyMouse {button x y : UInt16} (hbutton : button ≠ ESC) (hx : x ≠ ESC) (hy : y ≠ ESC) :
    Framed [ESC, 91, 77, button, x, y] := by
  refine ⟨⟨⟨_, rfl⟩, by simp [isCompleteSequence], parts_of_tail ?_⟩, by simp, by simp, inner_of_no_escape ?_⟩
  · intro m hm
    rcases m with _ | _ | _ | _ | m
    · rfl
    · rfl
    · simp [isCompleteSequence]
    · simp [isCompleteSequence]
    · simp at hm
      omega
  · simp [hbutton.symm, hx.symm, hy.symm]
    decide

theorem framed_ss3 (hu : u ≠ ESC) : Framed [ESC, 79, u] := by
  refine ⟨⟨⟨_, rfl⟩, by simp [isCompleteSequence], parts_of_tail ?_⟩, by simp, by simp, inner_of_no_escape ?_⟩
  · intro m hm
    obtain rfl : m = 0 := by
      simp at hm
      omega
    rfl
  · simp [hu.symm]
    decide

theorem framed_metaKey (hu : u ≠ ESC) (hopens : opensSequence (some u) = false) : Framed [ESC, u] := by
  refine ⟨⟨⟨_, rfl⟩, ?_, parts_of_tail ?_⟩, by simp, by simp [hu], inner_of_no_escape (by simpa using hu.symm)⟩
  · simp only [opensSequence, Bool.or_eq_false_iff, beq_eq_false_iff_ne, ne_eq, some.injEq] at hopens
    obtain ⟨⟨⟨⟨h91, h93⟩, h79⟩, h80⟩, h95⟩ := hopens
    simp [isCompleteSequence, eq_comm, h91, h93, h79, h80, h95]
  · intro m hm
    simp at hm

/-- Every shape is framed. -/
theorem IsSequence.framed {sequence : JsString} (h : IsSequence sequence) : Framed sequence := by
  cases h with
  | csi hbody hfinal hangle hmouse =>
    exact framed_csi hbody hfinal (csi_complete (fun u hu => (hbody u hu).2) hfinal hangle hmouse)
  | sgrMouse hbutton hx hy hfinal => exact framed_sgrMouse hbutton hx hy hfinal
  | legacyMouse hbutton hx hy => exact framed_legacyMouse hbutton hx hy
  | ss3 hu => exact framed_ss3 hu
  | osc hbody => exact framed_osc hbody
  | oscBell hbody => exact framed_oscBell hbody
  | dcs hbody => exact framed_dcs hbody
  | apc hbody => exact framed_apc hbody
  | metaKey hu hopens => exact framed_metaKey hu hopens

/-- The paste start marker is a CSI sequence. -/
theorem framed_start : Framed BRACKETED_PASTE_START :=
  (@IsSequence.csi [50, 48, 48] 126 (by decide) (by decide) (by decide)
    (fun h => (by cases h))).framed

end Shuvpi.StdinBuffer
