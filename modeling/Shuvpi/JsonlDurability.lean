import Shuvpi.DeltaPathKey
import Shuvpi.JsonlStorage

/-!
# What a session file keeps

In a run in which no append fails half-way and is followed by another one, the file holds
the kept transactions, each on its own line, and perhaps the beginning of one more: so it
can be opened, and the state is that of the kept transactions. An append that fails after
it has written something leaves the beginning of a line in front of the next commit, and
the file cannot be opened again.
-/
namespace Shuvpi.Jsonl

open JsText (ofString textEncode)
open JsonText (NumberFormat IsLine Preserved isDigit isNumberToken isUnsignedNumber isFraction)
open Session TextFile
open Delta (decimal)
open List Except

/-! ## A transaction is read back -/

/-- A write that was numbered, or read from a file. -/
structure Checked (write : CommittedWrite) : Prop where
  data : IsData write
  parses : parseCommittedWrite (.object write) = .ok write
  address : ∀ state : StorageState, state.checkAddress write = .ok ()

theorem safe_number {n minimum : Nat} (h : n ≤ JsNumber.MAX_SAFE_INTEGER) (hmin : minimum ≤ n) :
    isSafeIntegerAtLeast (some (number n)) minimum = true := by
  obtain ⟨hsafe, hvalue, _⟩ := JsNumber.ofInt_denotes n (by simpa using h)
  rw [number, isSafeIntegerAtLeast, hsafe, hvalue]
  simpa using hmin

theorem opIs_commitWrite (write : Write) (seq timestamp : Nat) :
    (write.kind = .value → opIs (commitWrite write seq timestamp) "set" || opIs (commitWrite write seq timestamp) "delete") ∧
      (write.kind = .list →
        opIs (commitWrite write seq timestamp) "append" || opIs (commitWrite write seq timestamp) "delete") := by
  have h₁ : ofString "seq" ≠ ofString "op" := by decide
  have h₂ : ofString "value" ≠ ofString "op" := by decide
  have h₃ : ofString "key" ≠ ofString "op" := by decide
  have h₄ : ofString "namespace" ≠ ofString "op" := by decide
  cases write <;>
    simp [Write.kind, opIs, textField, commitWrite, addressed, field_put, h₁, h₂, h₃, h₄, text]

theorem commitWrite_address {write : Write} (h : write.Storable) (seq timestamp : Nat) (state : StorageState) :
    state.checkAddress (commitWrite write seq timestamp) = .ok () := by
  have haddr : ∀ kind op n namespace_ key, field (addressed kind op n namespace_ key) "namespace" =
      some (.string namespace_) ∧ field (addressed kind op n namespace_ key) "key" = some (.string key) ∧
        field (addressed kind op n namespace_ key) "op" = some (text op) := by
    intro kind op n namespace_ key
    have h₁ : ofString "key" ≠ ofString "namespace" := by decide
    have h₂ : ofString "key" ≠ ofString "op" := by decide
    have h₃ : ofString "namespace" ≠ ofString "op" := by decide
    have h₄ : ofString "seq" ≠ ofString "op" := by decide
    simp only [addressed, field_put, if_neg h₁, if_neg h₂, if_neg h₃, if_neg h₄, if_true, and_self]
  have h₁ : ofString "value" ≠ ofString "namespace" := by decide
  have h₂ : ofString "value" ≠ ofString "key" := by decide
  rw [StorageState.checkAddress, commitWrite_kind]
  cases write with
  | entry | usage => rfl
  | setValue namespace_ key value =>
    simp only [Write.kind, commitWrite, textField, field_put, if_neg h₁, if_neg h₂, haddr, h.1, ite_self]
  | appendList namespace_ key value =>
    simp only [Write.kind, commitWrite, textField, field_put, if_neg h₁, if_neg h₂, haddr, h.1, ite_self]
  | deleteValue namespace_ key =>
    simp only [Write.kind, commitWrite, opIs, textField, haddr, text, decide_true, if_true]
  | deleteList namespace_ key =>
    simp only [Write.kind, commitWrite, opIs, textField, haddr, text, decide_true, if_true]

theorem commitWrite_checked {write : Write} (h : write.Storable) {seq : Nat} (hpos : 1 ≤ seq)
    (hseq : seq ≤ JsNumber.MAX_SAFE_INTEGER) (now : Timestamp) : Checked (commitWrite write seq now.1) := by
  refine ⟨commitWrite_data h hseq now.2, ?_, commitWrite_address h seq now.1⟩
  obtain ⟨hvalue, hlist⟩ := opIs_commitWrite write seq now.1
  rw [parseCommittedWrite, requireSafeInteger, commitWrite_seq, safe_number hseq hpos, if_pos rfl, commitWrite_kind]
  cases write with
  | entry entry =>
    simp only [Write.kind]
    rw [requireSafeInteger, commitWrite_timestamp, safe_number now.2 (Nat.zero_le _), if_pos rfl]
    rfl
  | usage row => rfl
  | setValue | deleteValue => simp only [Write.kind, hvalue rfl, if_true]; rfl
  | appendList | deleteList => simp only [Write.kind, hlist rfl, if_true]; rfl

variable {write : CommittedWrite}

theorem Checked.preserved (h : Checked write) : Preserved (.object write) := .object h.data.wf h.data.preserved

section Numbers

variable {numbers : NumberFormat}

variable {writes : List CommittedWrite}

theorem mapM_parse (h : ∀ write ∈ writes, Checked write) :
    (writes.map Json.object).mapM parseCommittedWrite = .ok writes := by
  induction writes with
  | nil => rfl
  | cons write writes ih =>
    rw [map_cons, mapM_cons, (h write mem_cons_self).parses, ih fun w hw => h w (mem_cons_of_mem _ hw)]
    rfl

theorem serialize_preserved (h : ∀ write ∈ writes, Checked write) :
    Preserved (.array (writes.map .object)) := by
  apply Preserved.array
  intro item hitem
  obtain ⟨write, hwrite, rfl⟩ := mem_map.mp hitem
  exact (h write hwrite).preserved

theorem parse_serialize (hne : writes ≠ []) (h : ∀ write ∈ writes, Checked write) :
    parseJsonlTransaction numbers (serializeJsonlTransaction numbers writes) = .ok writes := by
  match writes with
  | [] => exact absurd rfl hne
  | [write] =>
    rw [serializeJsonlTransaction, parseJsonlTransaction, JsonText.parse_stringify (h write mem_cons_self).preserved]
    exact mapM_parse h
  | write :: write' :: writes =>
    rw [serializeJsonlTransaction, parseJsonlTransaction, JsonText.parse_stringify (serialize_preserved h)]
    · exact mapM_parse h
    · simp

theorem serialize_line (h : ∀ write ∈ writes, Checked write) :
    IsLine (serializeJsonlTransaction numbers writes) := by
  match writes with
  | [] => exact JsonText.stringify_line (serialize_preserved h)
  | [write] => exact JsonText.stringify_line (h write mem_cons_self).preserved
  | write :: write' :: writes => exact JsonText.stringify_line (serialize_preserved h)

end Numbers

/-! ## The sequences of a transaction -/

variable {s s' : StorageState}

/-- Validation depends on the first sequence only as a lower bound. -/
theorem validateWrite_lower (hentries : s'.entries = s.entries) (husage : s'.usage = s.usage)
    {seen seen' : Seen} {previous : Nat} (hle : previous ≤ seen.previousSeq)
    (h : validateWrite s seen write = .ok seen') :
    validateWrite s' { seen with previousSeq := previous } write = .ok seen' := by
  have hhas : ∀ id, s'.hasEntryId id = s.hasEntryId id := by
    intro id
    rw [StorageState.hasEntryId, StorageState.hasEntryId, hentries]
  have hhas' : ∀ id, s'.hasEntryOrUsageId id = s.hasEntryOrUsageId id := by
    intro id
    rw [StorageState.hasEntryOrUsageId, StorageState.hasEntryOrUsageId, hhas, husage]
  rw [validateWrite] at h ⊢
  split at h
  · cases h
  · rename_i hgt
    rw [if_neg (by dsimp only; omega)]
    simp only [hhas', missingParent?, hhas] at h ⊢
    exact h

theorem validateWrites_lower (hentries : s'.entries = s.entries) (husage : s'.usage = s.usage)
    {seen seen' : Seen} {previous : Nat} (hle : previous ≤ seen.previousSeq) {writes : List CommittedWrite}
    (h : validateWrites s seen writes = .ok seen') :
    ∃ last, validateWrites s' { seen with previousSeq := previous } writes = .ok last := by
  induction writes generalizing seen previous with
  | nil => exact ⟨_, rfl⟩
  | cons write writes ih =>
    rw [validateWrites] at h ⊢
    obtain ⟨next, hnext, h⟩ := bind_ok.mp h
    rw [validateWrite_lower hentries husage hle hnext]
    exact ih (Nat.le_refl next.previousSeq) h

theorem advance_fields (state : StorageState) (header : JsObject) :
    (advance state header).entries = state.entries ∧ (advance state header).usage = state.usage ∧
      state.nextSeq ≤ (advance state header).nextSeq := by
  rw [advance]
  split
  · exact ⟨rfl, rfl, Nat.le_max_left _ _⟩
  · exact ⟨rfl, rfl, Nat.le_refl _⟩

variable {state : StorageState}

/-- A transaction that the advanced state accepts is accepted by the state itself. -/
theorem validateCommitted_of_advance {header : JsObject} {writes : List CommittedWrite}
    (h : (advance state header).validateCommitted writes = .ok ()) : state.validateCommitted writes = .ok () := by
  obtain ⟨hentries, husage, hseq⟩ := advance_fields state header
  rw [StorageState.validateCommitted] at h ⊢
  obtain ⟨seen, hv, h⟩ := bind_ok.mp h
  obtain ⟨last, hlast⟩ := @validateWrites_lower _ _ hentries.symm husage.symm _ _ (state.nextSeq - 1)
    (by dsimp only; omega) _ hv
  rw [hlast]
  rfl

/-! ## Applying a transaction -/

theorem applyWrite_nextSeq (state : StorageState) (write : CommittedWrite) :
    (state.applyWrite write).nextSeq = seqOf write + 1 := rfl

/-- The next sequence is all that a write overwrites without reading it. -/
theorem applyWrite_advanced (state : StorageState) (write : CommittedWrite) (n : Nat) :
    StorageState.applyWrite { state with nextSeq := n } write = state.applyWrite write := by
  unfold StorageState.applyWrite
  cases kindOf write with
  | none => rfl
  | some kind =>
    cases kind with
    | entry | usage => rfl
    | value =>
      dsimp only
      split <;> rfl
    | list =>
      dsimp only
      split
      · rfl
      · simp only [StorageState.appendElement]

theorem applyWrites_advanced {writes : List CommittedWrite} (hne : writes ≠ []) (state : StorageState)
    (header : JsObject) : (advance state header).applyWrites writes = state.applyWrites writes := by
  cases writes with
  | nil => exact absurd rfl hne
  | cons write writes =>
    rw [StorageState.applyWrites, StorageState.applyWrites, foldl_cons, foldl_cons]
    congr 1
    rw [advance]
    split
    · exact applyWrite_advanced state write _
    · rfl

/-- Where every address is valid no write is refused. -/
theorem applyValidated_checked {writes : List CommittedWrite} (h : ∀ write ∈ writes, Checked write) (state : StorageState) :
    state.applyValidated writes = (state.applyWrites writes, none) := by
  induction writes generalizing state with
  | nil => rfl
  | cons write writes ih =>
    rw [StorageState.applyValidated, (h write mem_cons_self).address]
    exact ih (fun w hw => h w (mem_cons_of_mem _ hw)) _

theorem applyWrites_nextSeq {writes : List CommittedWrite} (hne : writes ≠ []) (state : StorageState) :
    (state.applyWrites writes).nextSeq = seqOf (writes.getLast hne) + 1 := by
  obtain ⟨front, last, rfl⟩ := (eq_nil_or_concat' writes).resolve_left hne
  rw [StorageState.applyWrites, foldl_concat, applyWrite_nextSeq, getLast_append_singleton]

/-! ## Prepared transactions -/

open StorageState (prepareStorageCommit)

theorem prepare_checked {writes : List Write} (hstorable : ∀ write ∈ writes, write.Storable) {first : Nat} (hpos : 1 ≤ first)
    (hsafe : first + writes.length ≤ JsNumber.MAX_SAFE_INTEGER + 1) (now : Timestamp) :
    ∀ write ∈ prepareStorageCommit writes first now.1, Checked write := by
  intro write hmem
  obtain ⟨i, hi, rfl⟩ := mem_mapIdx.mp hmem
  exact commitWrite_checked (hstorable _ (getElem_mem hi)) (by omega) (by omega) now

theorem prepare_last {writes : List Write} {first : Nat} (hsafe : first + writes.length ≤ JsNumber.MAX_SAFE_INTEGER + 1)
    (now : Timestamp) (hne : prepareStorageCommit writes first now.1 ≠ []) :
    seqOf ((prepareStorageCommit writes first now.1).getLast hne) + 1 = first + writes.length := by
  have hwrs : writes ≠ [] := by
    rintro rfl
    exact hne rfl
  obtain ⟨front, last, rfl⟩ := (eq_nil_or_concat' writes).resolve_left hwrs
  rw [length_append, length_singleton] at hsafe
  simp only [prepareStorageCommit, mapIdx_concat, getLast_append_singleton]
  rw [seqOf_commitWrite _ (by omega), length_append, length_singleton]
  omega

theorem prepareCommit_ok {writes : List Write} {timestamp : Nat} {prepared : List CommittedWrite}
    (h : state.prepareCommit writes timestamp = .ok prepared) :
    prepared = prepareStorageCommit writes state.nextSeq timestamp ∧ state.validateCommitted prepared = .ok () := by
  rw [StorageState.prepareCommit] at h
  obtain ⟨u, hv, h⟩ := bind_ok.mp h
  cases h
  exact ⟨rfl, hv⟩

/-! ## The file is read back -/

/-- Transactions that can be replayed: none is empty, each is accepted by the state before
it. -/
def Sound : StorageState → List (List CommittedWrite) → Prop
  | _, [] => True
  | state, writes :: transactions =>
    writes ≠ [] ∧ (∀ write ∈ writes, Checked write) ∧ state.validateCommitted writes = .ok () ∧
      Sound (state.applyWrites writes) transactions

variable {transactions : List (List CommittedWrite)}

theorem sound_concat {writes : List CommittedWrite} (h : Sound state transactions) (hne : writes ≠ [])
    (hchk : ∀ write ∈ writes, Checked write)
    (hval : (transactions.foldl StorageState.applyWrites state).validateCommitted writes = .ok ()) :
    Sound state (transactions ++ [writes]) := by
  induction transactions generalizing state with
  | nil => exact ⟨hne, hchk, hval, trivial⟩
  | cons first transactions ih =>
    obtain ⟨h₁, h₂, h₃, hrest⟩ := h
    exact ⟨h₁, h₂, h₃, ih hrest hval⟩

theorem Sound.checked (h : Sound state transactions) :
    ∀ writes ∈ transactions, ∀ write ∈ writes, Checked write := by
  induction transactions generalizing state with
  | nil => simp
  | cons first transactions ih =>
    obtain ⟨_, hchk, _, hrest⟩ := h
    intro writes hmem
    rcases mem_cons.mp hmem with rfl | hmem
    · exact hchk
    · exact ih hrest writes hmem

/-- A header that the storage writes. -/
structure Header where
  props : JsObject
  data : IsData props
  valid : isJsonlStorageHeader props = true
  version : numberIs (field props "storageVersion") JSONL_STORAGE_VERSION = true

section Open

variable {numbers : NumberFormat}

theorem replayLines_sound {state : StorageState} {transactions : List (List CommittedWrite)}
    (h : Sound state transactions) :
    replayLines numbers state (transactions.map (serializeJsonlTransaction numbers)) =
      .ok (transactions.foldl StorageState.applyWrites state) := by
  induction transactions generalizing state with
  | nil => rfl
  | cons writes transactions ih =>
    obtain ⟨hne, hchk, hval, hrest⟩ := h
    have hstep : state.replayCommitted writes = .ok (state.applyWrites writes) := by
      rw [StorageState.replayCommitted, hval, applyValidated_checked hchk]
      rfl
    rw [List.map_cons, replayLines, parse_serialize hne hchk, List.foldl_cons, ← ih hrest]
    simp only [bind, Except.bind, hstep, Except.mapError]

/-- The lines of the file. -/
def fileLines (numbers : NumberFormat) (header : Header) (transactions : List (List CommittedWrite)) : List JsString :=
  JsonText.stringify numbers (.object header.props) :: transactions.map (serializeJsonlTransaction numbers)

variable (header : Header)

theorem header_line : IsLine (JsonText.stringify numbers (.object header.props)) :=
  JsonText.stringify_line (.object header.data.wf header.data.preserved)

theorem fileLines_line {transactions : List (List CommittedWrite)} (h : Sound .empty transactions) :
    ∀ line ∈ fileLines numbers header transactions, IsText line ∧ (10 : UInt16) ∉ line := by
  intro line hmem
  rcases mem_cons.mp hmem with rfl | hmem
  · exact ⟨(header_line header).text, (header_line header).single⟩
  · obtain ⟨writes, hwrs, rfl⟩ := mem_map.mp hmem
    have hline := @serialize_line numbers _ (h.checked writes hwrs)
    exact ⟨hline.text, hline.single⟩

theorem lineFeed_isText : IsText [10] := .unit (.inl (by decide))

theorem flatMap_encode {lines : List JsString} (h : ∀ line ∈ lines, IsText line) :
    lines.flatMap (fun line => textEncode (line ++ [10])) = textEncode (joinLines lines) := by
  induction lines with
  | nil => rfl
  | cons line lines ih =>
    have hrest : ∀ l ∈ lines, IsText l := fun l hl => h l (mem_cons_of_mem _ hl)
    have hjoin : joinLines (line :: lines) = line ++ [10] ++ joinLines lines := rfl
    rw [flatMap_cons, ih hrest, hjoin, textEncode_append ((h line mem_cons_self).append lineFeed_isText)
      (joinLines_isText hrest)]

theorem publishJsonl_eq {transactions : List (List CommittedWrite)} (h : Sound .empty transactions) :
    publishJsonl numbers header.props transactions = textEncode (joinLines (fileLines numbers header transactions)) := by
  rw [← flatMap_encode fun line hl => (fileLines_line header h line hl).1, fileLines, flatMap_cons, flatMap_map]
  rfl

/-- The first line is the header. -/
theorem readJsonlHeader_file (lines : List JsString) (tail : JsString) : readJsonlHeader numbers
        (joinLines (JsonText.stringify numbers (.object header.props) :: lines) ++ tail) = .ok header.props := by
  have hline := @header_line numbers header
  have hpreserved : Preserved (.object header.props) := .object header.data.wf header.data.preserved
  have hcont : joinLines (JsonText.stringify numbers (.object header.props) :: lines) ++ tail =
      JsonText.stringify numbers (.object header.props) ++ 10 :: (joinLines lines ++ tail) := by
    simp [joinLines]
  have hfirst : (JsonText.stringify numbers (.object header.props) ++ 10 :: (joinLines lines ++ tail)).takeWhile (· ≠ 10) =
      JsonText.stringify numbers (.object header.props) := by
    rw [takeWhile_append_of_pos]
    · simp
    · intro u hu
      have hne : u ≠ 10 := fun he => hline.single (he ▸ hu)
      simpa using hne
  obtain ⟨u, text, hstart, _, _⟩ := @JsonText.stringify_starts numbers _ hpreserved
  rw [hcont, readJsonlHeader]
  simp only [hfirst]
  rw [if_neg (by simp [hstart]), JsonText.parse_stringify hpreserved]
  simp only [header.valid, if_true]

/-- A file of sound transactions, perhaps with the beginning of another line. -/
theorem openStorage_sound {transactions : List (List CommittedWrite)} (h : Sound .empty transactions)
    {torn : Bytes} (htorn : (10 : UInt8) ∉ torn) :
    openStorage numbers (publishJsonl numbers header.props transactions ++ torn) =
      .ok (replayed header.props transactions, publishJsonl numbers header.props transactions) := by
  have hlines := @fileLines_line numbers header _ h
  have hne : fileLines numbers header transactions ≠ [] := List.cons_ne_nil _ _
  have hsplit := readTextFile_lines hne hlines htorn
  have hcont : readTextFile (textEncode (joinLines (fileLines numbers header transactions)) ++ torn) =
      joinLines (fileLines numbers header transactions) ++ JsText.ofScalars (decodeLossy torn) :=
    decodeLossy_text (joinLines_isText fun line hl => (hlines line hl).1) torn
  have hhdr : readJsonlHeader numbers (readTextFile (textEncode (joinLines (fileLines numbers header transactions)) ++ torn)) =
      .ok header.props := by
    rw [hcont]
    exact readJsonlHeader_file header _ _
  have hrepl := @replayLines_sound numbers _ _ h
  rw [publishJsonl_eq header h, openStorage]
  simp only [hhdr, bind, Except.bind, hsplit, header.version, Bool.true_eq_false, if_false]
  have htail : (fileLines numbers header transactions).tail = transactions.map (serializeJsonlTransaction numbers) := rfl
  rw [htail, hrepl]
  simp only [pure, Except.pure]
  have hfile : (if (!torn.isEmpty) = true then textEncode ([10].intercalate (fileLines numbers header transactions) ++ [10])
      else textEncode (joinLines (fileLines numbers header transactions)) ++ torn) =
      textEncode (joinLines (fileLines numbers header transactions)) := by
    rw [← joinLines_eq hne]
    cases torn with
    | nil => simp
    | cons b torn => rfl
  rw [hfile]
  rfl

end Open

/-! ## The rule -/

/-- A failing append does not write the whole line. -/
def Append.Partial (length : Nat) : Append → Prop
  | .fails written => written < length
  | _ => True

/-- The transaction that a commit is about to append, with the state it was prepared in. -/
def World.appending (w : World) (writes : List Write) (now : Timestamp) : Option (StorageState × List CommittedWrite) := do
  let state ← w.storage
  let prepared ← (state.prepareCommit writes now.1).toOption
  if prepared.isEmpty then none else some (state, prepared)

section Rule

variable (numbers : NumberFormat)

/-- A transaction may be appended: the file ends with a line feed, so no earlier append of
this process has failed half-way; if this one fails it has not written all its bytes; and
the sequences are safe integers. -/
def World.MayAppend (w : World) (state : StorageState) (prepared : List CommittedWrite) (append : Append) : Prop :=
  w.file.getLast? = some 10 ∧ append.Partial (transactionBytes numbers prepared).length ∧
    state.nextSeq + prepared.length ≤ JsNumber.MAX_SAFE_INTEGER + 1

/-- A commit that appends has writes that can be stored. -/
def World.Allowed (w : World) : Operation → Prop
  | .commit writes now append =>
    ∀ p ∈ w.appending writes now, (∀ write ∈ writes, write.Storable) ∧ w.MayAppend numbers p.1 p.2 append
  | .crash => True
  | .reopen => True

def World.AllAllowed (w : World) : List Operation → Prop
  | [] => True
  | operation :: operations => w.Allowed numbers operation ∧ (w.step numbers operation).AllAllowed operations

end Rule

instance (length : Nat) (append : Append) : Decidable (append.Partial length) :=
  match append with
  | .succeeds => .isTrue trivial
  | .fails written => inferInstanceAs (Decidable (written < length))
  | .crashes _ => .isTrue trivial

instance (numbers : NumberFormat) (w : World) (state : StorageState) (prepared : List CommittedWrite) (append : Append) :
    Decidable (w.MayAppend numbers state prepared append) :=
  inferInstanceAs (Decidable (w.file.getLast? = some 10 ∧ append.Partial (transactionBytes numbers prepared).length ∧
    state.nextSeq + prepared.length ≤ JsNumber.MAX_SAFE_INTEGER + 1))

/-- A file begins when it is created, with the storage open, or when a fork or an upgrade
publishes it. -/
inductive Begins (numbers : NumberFormat) (header : Header) : World → Prop
  | created (writes : List Write) (now : Timestamp) (prepared : List CommittedWrite) :
    (∀ write ∈ writes, write.Storable) → headerNextSeq header.props = none → writes.length ≤ JsNumber.MAX_SAFE_INTEGER →
      StorageState.empty.prepareCommit writes now.1 = .ok prepared → Begins numbers header
          { file := publishJsonl numbers header.props (if prepared = [] then [] else [prepared])
            storage := some (StorageState.empty.applyWrites prepared)
            kept := if prepared = [] then [] else [prepared] }
  | published (transactions : List (List CommittedWrite)) : Sound .empty transactions →
    Begins numbers header ⟨publishJsonl numbers header.props transactions, none, transactions⟩

/-! ## The invariant -/

structure Inv (numbers : NumberFormat) (header : Header) (w : World) : Prop where
  file : ∃ torn : Bytes, w.file = publishJsonl numbers header.props w.kept ++ torn ∧ (10 : UInt8) ∉ torn
  sound : Sound .empty w.kept
  live : ∀ state, w.storage = some state → state = replayed header.props w.kept

section Runs

variable {numbers : NumberFormat} {header : Header} {w : World}

theorem Inv.durable (h : Inv numbers header w) : w.Durable numbers header.props := by
  obtain ⟨torn, hfile, htorn⟩ := h.file
  refine ⟨⟨publishJsonl numbers header.props w.kept, ?_⟩, h.live⟩
  rw [hfile]
  exact openStorage_sound header h.sound htorn

theorem publishJsonl_concat (transactions : List (List CommittedWrite)) (writes : List CommittedWrite) :
    publishJsonl numbers header.props (transactions ++ [writes]) =
      publishJsonl numbers header.props transactions ++ transactionBytes numbers writes := by
  simp [publishJsonl]

variable {writes : List CommittedWrite}

/-- The bytes of a transaction end with a line feed and have no other one. -/
theorem transactionBytes_eq (h : ∀ write ∈ writes, Checked write) :
    ∃ front : Bytes, transactionBytes numbers writes = front ++ [10] ∧ (10 : UInt8) ∉ front := by
  have hline := @serialize_line numbers _ h
  refine ⟨textEncode (serializeJsonlTransaction numbers writes), ?_, textEncode_lineFeed hline.text hline.single⟩
  rw [transactionBytes, textEncode_append hline.text lineFeed_isText]
  rfl

theorem take_partial (h : ∀ write ∈ writes, Checked write) {n : Nat}
    (hn : n < (transactionBytes numbers writes).length) : (10 : UInt8) ∉ (transactionBytes numbers writes).take n := by
  obtain ⟨front, hbytes, hfront⟩ := @transactionBytes_eq numbers _ h
  rw [hbytes, length_append, length_singleton] at hn
  rw [hbytes, take_append_of_le_length (by omega)]
  exact fun hmem => hfront (mem_of_mem_take hmem)

/-- A file that ends with a line feed has no torn line. -/
theorem Inv.clean (h : Inv numbers header w) (hlast : w.file.getLast? = some 10) :
    w.file = publishJsonl numbers header.props w.kept := by
  obtain ⟨torn, hfile, htorn⟩ := h.file
  cases torn with
  | nil => rw [hfile, append_nil]
  | cons b torn =>
    rw [hfile, getLast?_append_of_ne_nil _ (by simp)] at hlast
    exact absurd (mem_of_getLast? hlast) htorn

/-- The next sequence of the replayed state is at least that of the header. -/
theorem replayed_nextSeq (header : JsObject) (transactions : List (List CommittedWrite)) :
    ∀ n, headerNextSeq header = some n → n ≤ (replayed header transactions).nextSeq := by
  intro n hn
  rw [replayed, advance, hn]
  exact Nat.le_max_right _ _

theorem applyWrites_nextSeq_pos (writes : List CommittedWrite) {state : StorageState} (h : 1 ≤ state.nextSeq) :
    1 ≤ (state.applyWrites writes).nextSeq := by
  by_cases hne : writes = []
  · subst hne
    exact h
  · rw [applyWrites_nextSeq hne]
    omega

theorem applyAll_nextSeq_pos (transactions : List (List CommittedWrite)) {state : StorageState}
    (h : 1 ≤ state.nextSeq) :
    1 ≤ (transactions.foldl StorageState.applyWrites state).nextSeq := by
  induction transactions generalizing state with
  | nil => exact h
  | cons writes transactions ih => exact ih (applyWrites_nextSeq_pos writes h)

theorem advance_of_le {state : StorageState} {header : JsObject}
    (h : ∀ n, headerNextSeq header = some n → n ≤ state.nextSeq) : advance state header = state := by
  rw [advance]
  split
  · rename_i n hn
    rw [StorageState.advanceNextSeq, Nat.max_eq_left (h n hn)]
  · rfl

/-- What a prepared transaction makes of the kept ones. -/
structure Extends (header : Header) (w : World) (state : StorageState) (prepared : List CommittedWrite) : Prop where
  checked : ∀ write ∈ prepared, Checked write
  sound : Sound .empty (w.kept ++ [prepared])
  state : state.applyWrites prepared = replayed header.props (w.kept ++ [prepared])

variable {prepared : List CommittedWrite} (h : Inv numbers header w)
include h

theorem Inv.extends {state : StorageState} (hstate : w.storage = some state)
    {writes : List Write} {now : Timestamp} (hstorable : ∀ write ∈ writes, write.Storable) (hne : prepared ≠ [])
    (hprep : state.prepareCommit writes now.1 = .ok prepared)
    (hsafe : state.nextSeq + prepared.length ≤ JsNumber.MAX_SAFE_INTEGER + 1) : Extends header w state prepared := by
  have hlive := h.live state hstate
  obtain ⟨heq, hval⟩ := prepareCommit_ok hprep
  have hlen : prepared.length = writes.length := by rw [heq, StorageState.prepareStorageCommit, length_mapIdx]
  rw [hlen] at hsafe
  have hpos : 1 ≤ state.nextSeq := by
    have := @applyAll_nextSeq_pos w.kept .empty (Nat.le_refl _)
    rw [hlive]
    exact Nat.le_trans this (advance_fields _ _).2.2
  have hchk : ∀ write ∈ prepared, Checked write := by
    rw [heq]
    exact prepare_checked hstorable hpos hsafe now
  constructor
  · exact hchk
  · apply sound_concat h.sound hne hchk
    rw [hlive] at hval
    exact validateCommitted_of_advance hval
  · have hnext : (state.applyWrites prepared).nextSeq = state.nextSeq + writes.length := by
      rw [applyWrites_nextSeq hne]
      subst heq
      exact prepare_last hsafe now hne
    have hall : applyAll (w.kept ++ [prepared]) = state.applyWrites prepared := by
      rw [applyAll, foldl_concat, hlive]
      exact (applyWrites_advanced hne _ _).symm
    rw [replayed, hall]
    symm
    apply advance_of_le
    intro n hn
    have hle := replayed_nextSeq header.props w.kept n hn
    rw [← hlive] at hle
    omega

/-- An append, however it ends. -/
theorem Inv.append {state : StorageState} (hext : Extends header w state prepared)
    {append : Append} (hmay : w.MayAppend numbers state prepared append) :
    Inv numbers header (w.append numbers state prepared append) := by
  obtain ⟨hlast, hpartial, _⟩ := hmay
  have hclean := h.clean hlast
  -- the bytes written by an append that does not come to its end
  have htorn : ∀ n, n < (transactionBytes numbers prepared).length →
      ∃ torn : Bytes, w.file ++ (transactionBytes numbers prepared).take n =
        publishJsonl numbers header.props w.kept ++ torn ∧ (10 : UInt8) ∉ torn := by
    intro n hn
    exact ⟨_, by rw [hclean], take_partial hext.checked hn⟩
  cases append with
  | succeeds =>
    simp only [World.append, applyValidated_checked hext.checked, if_true]
    constructor
    · exact ⟨[], by simp only [publishJsonl_concat, hclean, append_nil], not_mem_nil⟩
    · exact hext.sound
    · intro state' hs
      cases hs
      exact hext.state
  | fails n => exact ⟨htorn n hpartial, h.sound, h.live⟩
  | crashes n =>
    by_cases hn : (transactionBytes numbers prepared).length ≤ n
    · simp only [World.append, if_pos hn]
      constructor
      · exact ⟨[], by simp only [publishJsonl_concat, hclean, append_nil, take_of_length_le hn], not_mem_nil⟩
      · exact hext.sound
      · intro state' hs
        cases hs
    · simp only [World.append, if_neg hn]
      exact ⟨htorn n (by omega), h.sound, by simp⟩

theorem Inv.commit {writes : List Write} {now : Timestamp} {append : Append}
    (hallowed : w.Allowed numbers (.commit writes now append)) :
    Inv numbers header (w.commit numbers writes now append) := by
  simp only [World.Allowed, World.appending] at hallowed
  rw [World.commit]
  cases hstate : w.storage with
  | none => exact h
  | some state =>
    rw [hstate] at hallowed
    dsimp only
    cases hprep : state.prepareCommit writes now.1 with
    | error e => exact h
    | ok prepared =>
      cases prepared with
      | nil => exact h
      | cons write rest =>
        obtain ⟨hstorable, hmay⟩ := hallowed (state, write :: rest) (by simp [hprep, Except.toOption])
        exact h.append (h.extends hstate hstorable (List.cons_ne_nil _ _) hprep hmay.2.2) hmay

theorem Inv.reopen : Inv numbers header (w.reopen numbers) := by
  obtain ⟨torn, hfile, htorn⟩ := h.file
  have hopen := @openStorage_sound numbers header _ h.sound _ htorn
  rw [← hfile] at hopen
  rw [World.reopen, hopen]
  constructor
  · exact ⟨[], by simp, not_mem_nil⟩
  · exact h.sound
  · intro state hs
    cases hs
    rfl

theorem Inv.step {operation : Operation} (hallowed : w.Allowed numbers operation) :
    Inv numbers header (w.step numbers operation) := by
  cases operation with
  | commit writes now append => exact h.commit hallowed
  | crash => exact ⟨h.file, h.sound, by simp [World.step]⟩
  | reopen => exact h.reopen

theorem Inv.steps {operations : List Operation} (hallowed : w.AllAllowed numbers operations) :
    Inv numbers header (w.steps numbers operations) := by
  induction operations generalizing w with
  | nil => exact h
  | cons operation operations ih => exact ih (h.step hallowed.1) hallowed.2

omit h

theorem Begins.inv (h : Begins numbers header w) : Inv numbers header w := by
  cases h with
  | created writes now prepared hstorable hnext hlen hprep =>
    -- a storage that is open on an empty file, before its first transaction
    let w₀ : World := ⟨publishJsonl numbers header.props [], some .empty, []⟩
    have hempty : replayed header.props [] = .empty := by
      rw [replayed, advance, hnext]
      rfl
    have h₀ : Inv numbers header w₀ := ⟨⟨[], by simp [w₀], not_mem_nil⟩, trivial, by
      intro state hs
      cases hs
      exact hempty.symm⟩
    by_cases hne : prepared = []
    · subst hne
      simp only [if_true]
      exact h₀
    · simp only [if_neg hne]
      have hwrs : prepared.length = writes.length := by
        rw [(prepareCommit_ok hprep).1, StorageState.prepareStorageCommit, length_mapIdx]
      have hext := h₀.extends rfl hstorable hne hprep (by
        rw [hwrs]
        have hone : StorageState.empty.nextSeq = 1 := rfl
        omega)
      refine ⟨⟨[], by simp, not_mem_nil⟩, hext.sound, ?_⟩
      intro state hs
      cases hs
      exact hext.state
  | published transactions hsound => exact ⟨⟨[], by simp, not_mem_nil⟩, hsound, by simp⟩

end Runs

/-- In every run that keeps to the rule, and in every state it reaches, the file can be
opened, and its state is that of the transactions that were acknowledged or that a crash
found written in full, applied in order. -/
theorem durable_of_allowed (numbers : NumberFormat) (header : Header) {w : World} (hbegins : Begins numbers header w)
    (operations : List Operation) (hallowed : w.AllAllowed numbers operations) :
    (w.steps numbers operations).Durable numbers header.props :=
  (hbegins.inv.steps hallowed).durable

/-! ## Files -/

variable (n : Nat)

theorem decimal_isDigit : ∀ u ∈ decimal n, isDigit u = true := Delta.decimal_digits n

theorem decimal_head : (decimal n).length = 1 ∨ (decimal n).head? ≠ some 48 := by
  induction n using Nat.strongRecOn with
  | _ n ih =>
    by_cases hlt : n < 10
    · left
      rw [decimal, Nat.toDigits_of_lt_base hlt]
      rfl
    · right
      have hle : 10 ≤ n := by omega
      have hstep : decimal n = decimal (n / 10) ++ [UInt16.ofNat (Nat.digitChar (n % 10)).toNat] := by
        rw [decimal, Nat.toDigits_of_base_le (by decide) hle, map_append]
        rfl
      have hne := Delta.decimal_ne_nil (n / 10)
      rw [hstep, head?_append_of_ne_nil _ hne]
      by_cases hsmall : n / 10 < 10
      · have hpos : n / 10 ≠ 0 := by omega
        rw [decimal, Nat.toDigits_of_lt_base hsmall]
        have hcases : ∀ d < 10, d ≠ 0 → ([Nat.digitChar d].map fun c => UInt16.ofNat c.toNat).head? ≠ some 48 := by decide
        exact hcases _ hsmall hpos
      · rcases ih (n / 10) (by omega) with hone | hhead
        · exfalso
          rw [decimal, length_map, Nat.toDigits_of_base_le (by decide) (by omega : 10 ≤ n / 10), length_append] at hone
          have := length_pos_iff.mpr (Nat.toDigits_ne_nil (b := 10) (n := n / 10 / 10))
          simp at hone
        · exact hhead

theorem foldl_units {l : List Char} (h : ∀ c ∈ l, c.isDigit = true) (init : Nat) :
    l.foldl (fun n c => 10 * n + ((UInt16.ofNat c.toNat).toNat - 48)) init =
      l.foldl (fun n c => 10 * n + (c.toNat - '0'.toNat)) init := by
  induction l generalizing init with
  | nil => rfl
  | cons c l ih =>
    rw [foldl_cons, foldl_cons, (Delta.digit_toNat (h c mem_cons_self)).1, ih fun d hd => h d (mem_cons_of_mem _ hd)]
    rfl

theorem digitsValue_decimal : JsProps.digitsValue (decimal n) = n := by
  rw [JsProps.digitsValue, decimal, foldl_map,
    foldl_units fun c hc => Nat.isDigit_of_mem_toDigits (by decide) (by decide) hc]
  exact Nat.ofDigitChars_ten_toDigits

theorem decimal_unsigned {rest : JsString} (hrest : isFraction rest = true) (hhead : rest.head?.all (!isDigit ·)) :
    isUnsignedNumber (decimal n ++ rest) = true := by
  have htake : (decimal n ++ rest).takeWhile isDigit = decimal n := by
    rw [takeWhile_append_of_pos (decimal_isDigit n)]
    cases rest with
    | nil => simp
    | cons u rest =>
      have hu : isDigit u = false := by simpa using hhead
      simp [hu]
  have hdrop : (decimal n ++ rest).dropWhile isDigit = rest := by
    rw [dropWhile_append_of_pos (decimal_isDigit n)]
    cases rest with
    | nil => rfl
    | cons u rest =>
      have hu : isDigit u = false := by simpa using hhead
      simp [hu]
  have hne := isEmpty_eq_false_iff.mpr (Delta.decimal_ne_nil n)
  simp only [isUnsignedNumber, htake, hdrop, hrest, hne, Bool.not_false, Bool.true_and, Bool.and_true, Bool.or_eq_true,
    beq_iff_eq, bne_iff_ne]
  exact decimal_head n

theorem decimal_token {rest : JsString} (hrest : isFraction rest = true) (hhead : rest.head?.all (!isDigit ·)) :
    isNumberToken (decimal n ++ rest) = true := by
  have h := decimal_unsigned n hrest hhead
  cases hd : decimal n with
  | nil => exact absurd hd (Delta.decimal_ne_nil n)
  | cons u digits =>
    rw [hd] at h
    have hu : (u == 45) = false := by
      have := decimal_isDigit n u (by rw [hd]; exact mem_cons_self)
      cases he : u == 45 with
      | false => rfl
      | true =>
        rw [beq_iff_eq.mp he] at this
        cases this
    rw [cons_append] at h ⊢
    rw [isNumberToken, hu]
    exact h

theorem magnitude_toInt (x : JsNumber) :
    (x.toInt < 0 → -(x.magnitude : Int) = x.toInt) ∧ (¬x.toInt < 0 → (x.magnitude : Int) = x.toInt) := by
  unfold JsNumber.toInt
  split <;> omega

/-- Safe integers in decimal notation, as the program writes them. The others, which the
files below do not have, are written by their pattern. -/
def integerFormat : NumberFormat where
  toText x :=
    if x.isSafeInteger then if x.toInt < 0 then 45 :: decimal x.magnitude else decimal x.magnitude
    else decimal x.bits.toNat ++ [101, 52, 48, 48]
  ofText token :=
    if 101 ∈ token then ⟨UInt64.ofNat (JsProps.digitsValue (token.takeWhile isDigit))⟩
    else if token.head? = some 45 then JsNumber.ofInt (-(JsProps.digitsValue token.tail : Nat))
    else JsNumber.ofInt (JsProps.digitsValue token : Nat)
  token x _ := by
    split
    · split
      · rw [isNumberToken, if_pos (by decide)]
        simpa using @decimal_unsigned x.magnitude [] rfl rfl
      · simpa using @decimal_token x.magnitude [] rfl rfl
    · exact decimal_token _ (by decide) (by decide)
  read x hfinite hzero := by
    have hdigit : ∀ n, (101 : UInt16) ∉ decimal n ∧ (decimal n).head? ≠ some 45 := by
      intro n
      constructor
      · intro hmem
        exact absurd (decimal_isDigit n _ hmem) (by decide)
      · intro hhead
        exact absurd (decimal_isDigit n _ (List.mem_of_mem_head? hhead)) (by decide)
    by_cases hsafe : x.isSafeInteger = true
    · have hback := JsNumber.ofInt_toInt x hsafe hzero
      rw [if_pos hsafe]
      by_cases hneg : x.toInt < 0
      · rw [if_pos hneg, if_neg (by simp [(hdigit _).1]), if_pos List.head?_cons, List.tail_cons, digitsValue_decimal,
          (magnitude_toInt x).1 hneg, hback]
      · rw [if_neg hneg, if_neg (hdigit _).1, if_neg (hdigit _).2, digitsValue_decimal, (magnitude_toInt x).2 hneg, hback]
    · rw [if_neg hsafe, if_pos (by simp)]
      have htake : (decimal x.bits.toNat ++ [101, 52, 48, 48]).takeWhile isDigit = decimal x.bits.toNat := by
        rw [List.takeWhile_append_of_pos (decimal_isDigit _)]
        have hrest : List.takeWhile isDigit [101, 52, 48, 48] = [] := by decide
        rw [hrest, List.append_nil]
      rw [htake, digitsValue_decimal, UInt64.ofNat_toNat]

def sampleProps : JsObject :=
  put (put (put (put (put (put [] "v" (number 4)) "kind" (text "header")) "id" (text "s")) "storageVersion" (number 1))
    "createdAt" (number 0)) "cwd" (text "/")

def sampleHeader : Header where
  props := sampleProps
  data := (((((isData_nil.put _ (preserved_number (by decide))).put _ (preserved_text _)).put _ (preserved_text _)).put _
    (preserved_number (by decide))).put _ (preserved_number (by decide))).put _ (preserved_text _)
  valid := by decide +kernel
  version := by decide

/-- A storage that has just been created. -/
def sampleWorld : World := ⟨publishJsonl integerFormat sampleProps [], some .empty, []⟩

theorem sampleWorld_begins : Begins integerFormat sampleHeader sampleWorld :=
  .created [] ⟨0, by decide⟩ [] (by simp) (by decide) (by decide) rfl

/-- Writes of the values `a` and `b`. -/
def setA : Write := .setValue [110] [97] (.boolean true)
def setB : Write := .setValue [110] [98] (.boolean false)

theorem setA_storable : setA.Storable := ⟨by decide, .boolean true⟩

theorem setB_storable : setB.Storable := ⟨by decide, .boolean false⟩

def sampleTime : Timestamp := ⟨0, by decide⟩

/-- An append fails after five bytes and the file is opened again; a later one is cut by a
crash. -/
theorem durable_of_allowed_sample : (sampleWorld.steps integerFormat
      [.commit [setA, setB] sampleTime .succeeds, .commit [setA] sampleTime (.fails 5), .reopen,
        .commit [setB] sampleTime .succeeds, .commit [setA] sampleTime (.crashes 7), .reopen]).Durable integerFormat
      sampleHeader.props :=
  have hA : ∀ write ∈ [setA], write.Storable := by simp [setA_storable]
  have hB : ∀ write ∈ [setB], write.Storable := by simp [setB_storable]
  have hAB : ∀ write ∈ [setA, setB], write.Storable := by simp [setA_storable, setB_storable]
  durable_of_allowed integerFormat sampleHeader sampleWorld_begins _
    ⟨fun p hp => ⟨hAB, by revert p; decide +kernel⟩, fun p hp => ⟨hA, by revert p; decide +kernel⟩, trivial,
      fun p hp => ⟨hB, by revert p; decide +kernel⟩, fun p hp => ⟨hA, by revert p; decide +kernel⟩, trivial, trivial⟩

/-- The append of the first commit fails after one byte; the next commit succeeds. -/
def failedThenCommitted : World :=
  sampleWorld.steps integerFormat [.commit [setA] sampleTime (.fails 1), .commit [setB] sampleTime .succeeds]

/-- The acknowledged commit follows the byte of the failed one on its line, which is not
JSON: the file cannot be opened. -/
theorem failedThenCommitted_not_durable : ¬ failedThenCommitted.Durable integerFormat sampleHeader.props := by
  rintro ⟨⟨file, hopen⟩, _⟩
  have herror : (openStorage integerFormat failedThenCommitted.file).isOk = false := by decide +kernel
  rw [hopen] at herror
  cases herror

end Shuvpi.Jsonl
