import DistributedJobEngine.ApiJson
import DistributedJobEngine.JsonGrammar
import DistributedJobEngine.JsonPretty

/-! A job as a row of the table `jobs`. The twenty-eight columns are listed four times in the source: in
`kJobColumns`, by the placeholders of the `INSERT`, by the assignments of the `UPDATE`, and by the indices that
`read_job_row` reads. SQLite keeps the value bound to a column as it is, within its limits. -/

namespace DistributedJobEngine

/-- The bytes of a string of the model. -/
def toBytes (s : String) : Bytes := s.toList.map fun c => UInt8.ofNat c.toNat

inductive JobColumn where
  | jobId | type | payload | priority | state | attempt | maxAttempts | timeoutMs | backoffBaseMs | backoffMult
  | backoffMaxMs | backoffJitter | createdAtMs | startedAtMs | finishedAtMs | readyAtMs | queueWaitUs | execUs
  | result | error | workflowId | workflowNode | pendingDeps | leaseToken | leaseOwner | leaseExpiresMs
  | cancelRequested | seq
  deriving DecidableEq, Repr

/-- A value of a column. -/
inductive SqlValue where
  | null
  | int (v : Int)
  | real (v : ℚ)
  | text (s : String)
  deriving DecidableEq, Repr

namespace SqlValue

def asText : SqlValue → String
  | text s => s
  | _ => ""

def asInt : SqlValue → Int
  | int v => v
  | _ => 0

def asReal : SqlValue → ℚ
  | real v => v
  | _ => 0

end SqlValue

abbrev JobRow := JobColumn → SqlValue

/-- What SQLite imposes on a row: `SQLITE_LIMIT_LENGTH` bounds the bytes of a text and those of the record that a
row is written as. A limit lies between the smallest and the largest one SQLite takes. -/
structure Sqlite where
  maxLength : ℕ := 1000000000
  recordSize : JobRow → ℕ
  ge_min : 30 ≤ maxLength := by decide
  lt_max : maxLength < 2 ^ 31 := by decide

namespace JobRow

open JobColumn

/-- `kJobColumns`. -/
def jobColumns : List JobColumn :=
  [jobId, type, payload, priority, state, attempt, maxAttempts, timeoutMs, backoffBaseMs, backoffMult, backoffMaxMs,
    backoffJitter, createdAtMs, startedAtMs, finishedAtMs, readyAtMs, queueWaitUs, execUs, result, error, workflowId,
    workflowNode, pendingDeps, leaseToken, leaseOwner, leaseExpiresMs, cancelRequested, seq]

/-- The placeholders of `kInsert`. -/
def insertPlaceholders : List ℕ :=
  [1, 2, 3, 4, 5, 6, 7, 8, 9, 10, 11, 12, 13, 14, 15, 16, 17, 18, 19, 20, 21, 22, 23, 24, 25, 26, 27, 28]

/-- The assignments of `kUpdate`. -/
def updateAssignments : List (JobColumn × ℕ) :=
  [(type, 2), (payload, 3), (priority, 4), (state, 5), (attempt, 6), (maxAttempts, 7), (timeoutMs, 8),
    (backoffBaseMs, 9), (backoffMult, 10), (backoffMaxMs, 11), (backoffJitter, 12), (createdAtMs, 13),
    (startedAtMs, 14), (finishedAtMs, 15), (readyAtMs, 16), (queueWaitUs, 17), (execUs, 18), (result, 19),
    (error, 20), (workflowId, 21), (workflowNode, 22), (pendingDeps, 23), (leaseToken, 24), (leaseOwner, 25),
    (leaseExpiresMs, 26), (cancelRequested, 27), (seq, 28)]

/-- The parameter `?k`; one that was never bound is `NULL`. -/
def parameter (params : List SqlValue) (k : ℕ) : SqlValue := params[k - 1]?.getD .null

/-- The columns that are declared `NOT NULL`. -/
def notNull : List JobColumn :=
  [type, payload, priority, state, attempt, maxAttempts, timeoutMs, backoffBaseMs, backoffMult, backoffMaxMs,
    backoffJitter, createdAtMs, startedAtMs, finishedAtMs, readyAtMs, queueWaitUs, execUs, pendingDeps, leaseToken,
    leaseExpiresMs, cancelRequested, seq]

/-- A statement that would write this row succeeds. -/
def Admits (sql : Sqlite) (row : JobRow) : Prop :=
  (∀ c ∈ notNull, row c ≠ .null) ∧ sql.recordSize row ≤ sql.maxLength

instance (sql : Sqlite) (row : JobRow) : Decidable (Admits sql row) := inferInstanceAs (Decidable (_ ∧ _))

/-- The values of `kInsert`. -/
def insertValues (params : List SqlValue) : JobRow := fun c =>
  match (jobColumns.zip insertPlaceholders).lookup c with
  | some k => parameter params k
  | none => .null

def insertRow (sql : Sqlite) (params : List SqlValue) : Option JobRow :=
  if Admits sql (insertValues params) then some (insertValues params) else none

/-- The row with the assignments of `kUpdate`. -/
def updateValues (params : List SqlValue) (row : JobRow) : JobRow := fun c =>
  match updateAssignments.lookup c with
  | some k => parameter params k
  | none => row c

/-- What `kUpdate` makes of a row its `WHERE` selects. -/
def updateRow (sql : Sqlite) (params : List SqlValue) (row : JobRow) : Option JobRow :=
  if Admits sql (updateValues params row) then some (updateValues params row) else none

/-- `WHERE job_id=?1`, which selects nothing for `NULL`. -/
def Selects (params : List SqlValue) (row : JobRow) : Prop :=
  row jobId = parameter params 1 ∧ parameter params 1 ≠ .null

/-- What `sqlite3_bind_text` is given of a string. Its length is narrowed to an `int`, and a negative one stands for
the bytes before the first zero byte. -/
def givenText (s : String) : String :=
  String.ofList (if toInt32 s.length < 0 then s.toList.takeWhile fun c => decide (c ≠ Char.ofNat 0)
    else s.toList.take (toInt32 s.length).toNat)

/-- The parameter stays `NULL` when the text is too long; the result code is not looked at. -/
def bindText (sql : Sqlite) (s : String) : SqlValue :=
  if (givenText s).length ≤ sql.maxLength then .text (givenText s) else .null

def bindTextOrNull (sql : Sqlite) (s : String) : SqlValue := if s.isEmpty then .null else bindText sql s

/-- A call of one of the functions that bind a parameter. -/
inductive BindCall where
  | text (s : String)
  | textOrNull (s : String)
  | int64 (v : Int)
  | double (v : ℚ)

def BindCall.value (sql : Sqlite) : BindCall → SqlValue
  | text s => bindText sql s
  | textOrNull s => bindTextOrNull sql s
  | int64 v => .int v
  | double v => .real v

def bindBool (b : Bool) : BindCall := .int64 (if b then 1 else 0)

/-- `static_cast<sqlite3_int64>` of a `uint64_t`. -/
def toSigned (n : UInt64) : Int := (n.toNat : Int).bmod (2 ^ 64)

def payloadText (libc : Libc) (job : Job) : String := ofBytes (job.payload.dump libc)

def resultText (libc : Libc) (job : Job) : String := if job.result.isNull then "" else ofBytes (job.result.dump libc)

/-- The calls of `write_job_row_locked` for `?1`, …, `?28`. -/
def bindCalls (libc : Libc) (job : Job) : List BindCall :=
  [.text job.jobId,
    .text job.type,
    .text (payloadText libc job),
    .int64 job.priority,
    .text job.state.toString,
    .int64 job.attempt,
    .int64 job.retry.maxAttempts,
    .int64 job.timeoutMs,
    .int64 job.retry.backoffBaseMs,
    .double job.retry.backoffMultiplier,
    .int64 job.retry.backoffMaxMs,
    bindBool job.retry.jitter,
    .int64 job.createdAtMs,
    .int64 job.startedAtWallMs,
    .int64 job.finishedAtWallMs,
    .int64 job.readyAtWallMs,
    .int64 job.queueWaitUs,
    .int64 job.execUs,
    .textOrNull (resultText libc job),
    .textOrNull job.error,
    .textOrNull job.workflowId,
    .textOrNull job.workflowNode,
    .int64 job.pendingDeps,
    .int64 (toSigned job.leaseToken),
    .textOrNull job.leaseOwner,
    .int64 job.leaseExpiresMs,
    bindBool job.cancelRequested,
    .int64 job.seq]

def bindings (sql : Sqlite) (libc : Libc) (job : Job) : List SqlValue := (bindCalls libc job).map (BindCall.value sql)

/-- `SELECT` with `kJobColumns`: the values of a row by their index. -/
def select (row : JobRow) : List SqlValue := jobColumns.map row

def column (cols : List SqlValue) (i : ℕ) : SqlValue := cols[i]?.getD .null

/-- A column that is `NULL` is the empty string. -/
def colText (cols : List SqlValue) (i : ℕ) : String := (column cols i).asText

def colInt (cols : List SqlValue) (i : ℕ) : Int := (column cols i).asInt

def colBool (cols : List SqlValue) (i : ℕ) : Bool := decide (colInt cols i ≠ 0)

def colDouble (cols : List SqlValue) (i : ℕ) : ℚ := (column cols i).asReal

/-- A payload that does not parse is the empty object. -/
def readPayload (libc : Libc) (s : String) : Json :=
  let j := Json.parseOrNull libc (toBytes s)
  if j.isNull then .object [] else j

def readResult (libc : Libc) (s : String) : Json := if s.isEmpty then .null else Json.parseOrNull libc (toBytes s)

def readJobRow (libc : Libc) (cols : List SqlValue) : Job :=
  { jobId := colText cols 0
    type := colText cols 1
    payload := readPayload libc (colText cols 2)
    priority := toInt32 (colInt cols 3)
    state := (JobState.fromString (colText cols 4)).getD .queued
    attempt := toInt32 (colInt cols 5)
    retry :=
      { maxAttempts := toInt32 (colInt cols 6)
        backoffBaseMs := colInt cols 8
        backoffMultiplier := colDouble cols 9
        backoffMaxMs := colInt cols 10
        jitter := colBool cols 11 }
    timeoutMs := colInt cols 7
    createdAtMs := colInt cols 12
    startedAtWallMs := colInt cols 13
    finishedAtWallMs := colInt cols 14
    readyAtWallMs := colInt cols 15
    queueWaitUs := colInt cols 16
    execUs := colInt cols 17
    result := readResult libc (colText cols 18)
    error := colText cols 19
    workflowId := colText cols 20
    workflowNode := colText cols 21
    pendingDeps := toInt32 (colInt cols 22)
    leaseToken := UInt64.ofInt (colInt cols 23)
    leaseOwner := colText cols 24
    leaseExpiresMs := colInt cols 25
    cancelRequested := colBool cols 26
    seq := colInt cols 27 }

/-! ### The lists of columns agree -/

/-- Every column is selected at the index of the parameter that was inserted for it. -/
theorem select_insertValues {params : List SqlValue} (h : params.length = 28) :
    select (insertValues params) = params := by
  have hselect : select (insertValues params) = insertPlaceholders.map (parameter params) := rfl
  have hplaceholders : insertPlaceholders = (List.range 28).map (· + 1) := by decide
  rw [hselect, hplaceholders, List.map_map, ← h]
  refine List.ext_getElem (by simp) fun i hi hi' => ?_
  simp [parameter, List.getElem?_eq_getElem hi']

/-- The value of a column is at its index in `kJobColumns`. -/
theorem insertValues_eq (params : List SqlValue) (c : JobColumn) :
    insertValues params c = column params (jobColumns.idxOf c) := by
  cases c <;> rfl

/-- **An update writes the row an insertion would write.** -/
theorem updateRow_eq_insertRow {sql : Sqlite} {params : List SqlValue} {row : JobRow} (h : Selects params row) :
    updateRow sql params row = insertRow sql params := by
  have hvalues : updateValues params row = insertValues params := by
    funext c
    cases c with
    | jobId => exact h.1
    | _ => rfl
  rw [updateRow, insertRow, hvalues]

/-! ### The texts of a row -/

/-- What is read of a column to which the string was bound. -/
def boundText (sql : Sqlite) (s : String) : String := (bindText sql s).asText

/-- The strings that SQLite takes as a whole. -/
def Fits (sql : Sqlite) (s : String) : Prop := s.length ≤ sql.maxLength

variable {sql : Sqlite}

theorem boundText_prefix (sql : Sqlite) (s : String) : (boundText sql s).toList <+: s.toList := by
  rw [boundText, bindText]
  split
  · rw [SqlValue.asText, givenText, String.toList_ofList]
    split
    · exact List.takeWhile_prefix _
    · exact List.take_prefix _ _
  · exact List.nil_prefix

theorem bindText_of_fits {s : String} (h : Fits sql s) : bindText sql s = .text s := by
  have hmax := sql.lt_max
  have hlength : s.length < 2 ^ 31 := lt_of_le_of_lt h hmax
  have hgiven : givenText s = s := by
    rw [givenText, Api.toInt32_of_mem (by omega) (by omega), if_neg (by omega), Int.toNat_natCast,
      ← String.length_toList, List.take_length, String.ofList_toList]
  rw [bindText, hgiven]
  exact if_pos h

theorem fits_boundText (sql : Sqlite) (s : String) : Fits sql (boundText sql s) := by
  rw [boundText, bindText]
  split
  · next hle => exact hle
  · exact Nat.zero_le _

theorem boundText_eq_iff (s : String) : boundText sql s = s ↔ Fits sql s := by
  constructor
  · intro h
    rw [← h]
    exact fits_boundText sql s
  · intro h
    rw [boundText, bindText_of_fits h, SqlValue.asText]

/-- A text that every limit allows. -/
theorem fits_of_length {s : String} (h : s.length ≤ 30) : Fits sql s := h.trans sql.ge_min

theorem fits_empty : Fits sql "" := Nat.zero_le _

theorem fits_state (st : JobState) : Fits sql st.toString := by
  cases st <;> exact fits_of_length (by decide)

theorem toBytes_ofBytes (b : Bytes) : toBytes (ofBytes b) = b := by
  have hbyte : ∀ c : UInt8, UInt8.ofNat (Char.ofNat c.toNat).toNat = c :=
    forall_byte (by decide +kernel)
  rw [toBytes, ofBytes, String.toList_ofList, List.map_map]
  exact (List.map_congr_left fun c _ => hbyte c).trans (List.map_id b)

end JobRow

/-! ### Texts of values that are cut short -/

namespace Json

open JsonParser

/-- The text of a value other than a number starts and ends with a byte that no blank and no number has. -/
theorem Integral.dump_framed {j : Json} (h : j.Integral) (hint : ∀ v, j ≠ .int v) (libc : Libc) :
    ∃ c s d, j.dump libc = c :: (s ++ [d]) ∧ isSpace c = false ∧ ¬ (isDigit c = true ∨ c = 45) ∧
      isSpace d = false := by
  cases h with
  | null => exact ⟨110, text "ul", 108, rfl, by decide⟩
  | bool b =>
      cases b with
      | true => exact ⟨116, text "ru", 101, rfl, by decide⟩
      | false => exact ⟨102, text "als", 101, rfl, by decide⟩
  | int v => exact absurd rfl (hint v)
  | str s => exact ⟨34, s.flatMap escapeByte, 34, rfl, by decide⟩
  | array items _ =>
      rw [dump, dumpInto]
      split
      · exact ⟨91, [], 93, by decide⟩
      · exact ⟨91, _, 93, rfl, by decide⟩
  | object members _ =>
      rw [dump, dumpInto]
      split
      · exact ⟨123, [], 125, by decide⟩
      · exact ⟨123, _, 125, rfl, by decide⟩

/-- **The text of a value other than a number does not parse when its end is missing.** -/
theorem Integral.parse_truncated {j : Json} (h : j.Integral) (hint : ∀ v, j ≠ .int v) (hplain : j.Plain)
    (hheight : j.height ≤ maxDepth) {libc : Libc} {p rest : Bytes} (htext : j.dump libc = p ++ rest)
    (hrest : rest ≠ []) : parseOrNull libc p = .null := by
  cases hparse : parse libc p with
  | error e => rw [parseOrNull, hparse]
  | ok j' =>
      exfalso
      obtain ⟨c, s, d, hframe, hspace, hc, hd⟩ := h.dump_framed hint libc
      have hfull := h.parse_dumpInto libc 0 hplain hheight
      rw [← dump, htext] at hfull
      cases p with
      | nil => cases hparse
      | cons c' p =>
          have hcc : c = c' := (List.cons.inj (hframe.symm.trans htext)).1
          subst hcc
          have hblank : JsonGrammar.Blank rest :=
            JsonGrammar.run_append hspace hc ⟨_, parse_eq_ok.mp hparse⟩ ⟨_, parse_eq_ok.mp hfull⟩
          obtain ⟨r, d', rfl⟩ : ∃ r d', rest = r ++ [d'] := ⟨_, _, (List.dropLast_append_getLast hrest).symm⟩
          have hlast : d = d' := by
            have happend : c :: s ++ [d] = (c :: p ++ r) ++ [d'] := by
              rw [List.append_assoc, ← htext, hframe, List.cons_append]
            exact List.singleton_inj.mp (List.append_inj_right' happend rfl)
          rw [hlast, hblank d' (by simp)] at hd
          cases hd

end Json

namespace JobRow

variable {sql : Sqlite}

theorem length_ofBytes (b : Bytes) : (ofBytes b).length = b.length := by
  rw [ofBytes, String.length_ofList, List.length_map]

theorem fits_of_short {b : Bytes} (h : b.length ≤ 30) : Fits sql (ofBytes b) :=
  fits_of_length (by rwa [length_ofBytes])

/-- The decimals of an `int64_t` are few. -/
theorem fits_num {v : Int} (h : JsonParser.InInt64 v) : Fits sql (ofBytes (num v)) := by
  have habs : v.natAbs < 10 ^ 20 := by
    unfold JsonParser.InInt64 at h
    omega
  have hdigits : (decimal v.natAbs).length ≤ 20 := by
    rw [decimal, List.length_map]
    exact Nat.toDigits_length 10 _ 20 (by decide) habs
  refine fits_of_short ?_
  rw [num]
  split
  · rw [List.length_cons]
    omega
  · omega

section Values

variable {libc : Libc} {j : Json}

/-- **A value whose text is bound as a whole is read back.** -/
theorem parseOrNull_of_fits (hplain : j.Plain) (hint : j.Integral) (hheight : j.height ≤ JsonParser.maxDepth)
    (hfits : Fits sql (ofBytes (j.dump libc))) :
    Json.parseOrNull libc (toBytes (boundText sql (ofBytes (j.dump libc)))) = j := by
  rw [(boundText_eq_iff _).mpr hfits, toBytes_ofBytes, Json.parseOrNull, Json.dump,
    hint.parse_dumpInto libc 0 hplain hheight]

/-- A value whose text is cut is read as null: numbers have short texts. -/
theorem parseOrNull_of_cut (hplain : j.Plain) (hint : j.Integral) (hheight : j.height ≤ JsonParser.maxDepth)
    (hcut : ¬ Fits sql (ofBytes (j.dump libc))) :
    Json.parseOrNull libc (toBytes (boundText sql (ofBytes (j.dump libc)))) = .null := by
  have hnumber : ∀ v, j ≠ .int v := by
    rintro v rfl
    cases hplain with
    | int _ hv => exact hcut (fits_num hv)
  obtain ⟨rest, hrest⟩ := boundText_prefix sql (ofBytes (j.dump libc))
  have htext : j.dump libc =
      toBytes (boundText sql (ofBytes (j.dump libc))) ++ rest.map fun c => UInt8.ofNat c.toNat := by
    rw [toBytes, ← List.map_append, hrest, ← toBytes, toBytes_ofBytes]
  refine hint.parse_truncated hnumber hplain hheight htext fun hnil => hcut ?_
  rw [List.map_eq_nil_iff.mp hnil, List.append_nil, String.toList_inj] at hrest
  exact (boundText_eq_iff _).mp hrest

theorem readPayload_eq_iff (hplain : j.Plain) (hint : j.Integral) (hheight : j.height ≤ JsonParser.maxDepth)
    (hnull : j.isNull = false) :
    readPayload libc (boundText sql (ofBytes (j.dump libc))) = j ↔ Fits sql (ofBytes (j.dump libc)) := by
  constructor
  · intro h
    by_contra hcut
    rw [readPayload, parseOrNull_of_cut hplain hint hheight hcut] at h
    -- the payload is the empty object, whose text is short
    refine hcut ?_
    rw [← h]
    exact fits_of_short (show 2 ≤ 30 by decide)
  · intro hfits
    rw [readPayload, parseOrNull_of_fits hplain hint hheight hfits]
    simp only [hnull, Bool.false_eq_true, if_false]

theorem readResult_eq (libc : Libc) (s : String) : readResult libc s = Json.parseOrNull libc (toBytes s) := by
  rw [readResult]
  split
  · next hempty =>
      rw [String.isEmpty_iff.mp hempty]
      rfl
  · rfl

theorem readResult_eq_iff {job : Job} (hplain : job.result.Plain) (hint : job.result.Integral)
    (hheight : job.result.height ≤ JsonParser.maxDepth) :
    readResult libc (boundText sql (resultText libc job)) = job.result ↔ Fits sql (resultText libc job) := by
  rw [readResult_eq, resultText]
  split
  · next hnull =>
      have hresult : job.result = .null := by
        cases hjson : job.result <;> simp_all [Json.isNull]
      rw [hresult, (boundText_eq_iff "").mpr fits_empty]
      exact ⟨fun _ => fits_empty, fun _ => rfl⟩
  · next hnull =>
      refine ⟨fun h => ?_, fun hfits => parseOrNull_of_fits hplain hint hheight hfits⟩
      by_contra hcut
      rw [parseOrNull_of_cut hplain hint hheight hcut] at h
      exact hnull (by rw [← h]; rfl)

end Values

/-! ### The row of a job -/

/-- The values of a C++ `int`. -/
def InInt32 (v : Int) : Prop := -2 ^ 31 ≤ v ∧ v < 2 ^ 31

/-- A JSON value that a column keeps: without a `double`, and nested no deeper than the parser allows. -/
structure Storable (j : Json) : Prop where
  plain : j.Plain
  integral : j.Integral
  height : j.height ≤ JsonParser.maxDepth

/-- The jobs whose columns are kept: its `int` members are values of that type, and its payload is not null. -/
structure StorableJob (job : Job) : Prop where
  priority : InInt32 job.priority
  attempt : InInt32 job.attempt
  maxAttempts : InInt32 job.retry.maxAttempts
  pendingDeps : InInt32 job.pendingDeps
  payload : Storable job.payload
  payload_ne : job.payload.isNull = false
  result : Storable job.result

/-- The strings that `write_job_row_locked` binds, the name of the state apart. -/
def texts (libc : Libc) (job : Job) : List String :=
  [job.jobId, job.type, payloadText libc job, resultText libc job, job.error, job.workflowId, job.workflowNode,
    job.leaseOwner]

variable {libc : Libc} {job : Job}

theorem ofInt_toSigned (n : UInt64) : UInt64.ofInt (toSigned n) = n := by
  have hmod : toSigned n % 2 ^ 64 = n.toNat := by
    have hlt := n.toNat_lt
    exact Int.bmod_emod.trans (Int.emod_eq_of_lt (Int.natCast_nonneg _) (by exact_mod_cast hlt))
  rw [UInt64.ofInt, hmod, Int.toNat_natCast, UInt64.ofNat_toNat]

section Columns

variable {calls : List BindCall} {i : ℕ}

theorem column_bound {call : BindCall} (h : calls[i]? = some call) :
    column (calls.map (BindCall.value sql)) i = call.value sql := by
  rw [column, List.getElem?_map, h]
  rfl

theorem colText_of_text {s : String} (h : calls[i]? = some (.text s)) :
    colText (calls.map (BindCall.value sql)) i = boundText sql s := by
  rw [colText, column_bound h, BindCall.value, boundText]

theorem colText_of_textOrNull {s : String} (h : calls[i]? = some (.textOrNull s)) :
    colText (calls.map (BindCall.value sql)) i = boundText sql s := by
  rw [colText, column_bound h, BindCall.value, bindTextOrNull, boundText]
  split
  · next hempty =>
      rw [String.isEmpty_iff.mp hempty, bindText_of_fits fits_empty]
      rfl
  · rfl

theorem colInt_of_int64 {v : Int} (h : calls[i]? = some (.int64 v)) :
    colInt (calls.map (BindCall.value sql)) i = v := by
  rw [colInt, column_bound h]
  rfl

theorem colDouble_of_double {v : ℚ} (h : calls[i]? = some (.double v)) :
    colDouble (calls.map (BindCall.value sql)) i = v := by
  rw [colDouble, column_bound h]
  rfl

theorem colBool_of_bindBool {b : Bool} (h : calls[i]? = some (bindBool b)) :
    colBool (calls.map (BindCall.value sql)) i = b := by
  rw [colBool, colInt_of_int64 h]
  cases b <;> rfl

end Columns

/-- What is read of the row of a job: the job, with every text as it was bound and the values of an `int` narrowed. -/
theorem readJobRow_bindings (sql : Sqlite) (libc : Libc) (job : Job) :
    readJobRow libc (bindings sql libc job) =
      { job.persisted with
        jobId := boundText sql job.jobId
        type := boundText sql job.type
        payload := readPayload libc (boundText sql (payloadText libc job))
        priority := toInt32 job.priority
        attempt := toInt32 job.attempt
        retry := { job.retry with maxAttempts := toInt32 job.retry.maxAttempts }
        result := readResult libc (boundText sql (resultText libc job))
        error := boundText sql job.error
        workflowId := boundText sql job.workflowId
        workflowNode := boundText sql job.workflowNode
        pendingDeps := toInt32 job.pendingDeps
        leaseOwner := boundText sql job.leaseOwner } := by
  have hstate : JobState.fromString (colText (bindings sql libc job) 4) = some job.state := by
    rw [bindings, colText_of_text (by rfl : _ = some (BindCall.text job.state.toString)),
      (boundText_eq_iff _).mpr (fits_state job.state), JobState.fromString_toString]
  have htoken : UInt64.ofInt (colInt (bindings sql libc job) 23) = job.leaseToken := by
    rw [bindings, colInt_of_int64 (by rfl : _ = some (BindCall.int64 (toSigned job.leaseToken))), ofInt_toSigned]
  have hretry : (⟨toInt32 (colInt (bindings sql libc job) 6), colInt (bindings sql libc job) 8,
      colDouble (bindings sql libc job) 9, colInt (bindings sql libc job) 10, colBool (bindings sql libc job) 11⟩ :
        RetryPolicy) = { job.retry with maxAttempts := toInt32 job.retry.maxAttempts } := by
    rw [bindings, colInt_of_int64 (by rfl : _ = some (BindCall.int64 job.retry.maxAttempts)),
      colInt_of_int64 (by rfl : _ = some (BindCall.int64 job.retry.backoffBaseMs)),
      colDouble_of_double (by rfl : _ = some (BindCall.double job.retry.backoffMultiplier)),
      colInt_of_int64 (by rfl : _ = some (BindCall.int64 job.retry.backoffMaxMs)),
      colBool_of_bindBool (by rfl : _ = some (bindBool job.retry.jitter))]
  rw [readJobRow, Job.persisted, Job.mk.injEq]
  refine ⟨colText_of_text rfl, colText_of_text rfl, congrArg _ (colText_of_text rfl),
    congrArg _ (colInt_of_int64 rfl), by rw [hstate, Option.getD_some], congrArg _ (colInt_of_int64 rfl), hretry,
    colInt_of_int64 rfl, colInt_of_int64 rfl, colInt_of_int64 rfl, colInt_of_int64 rfl, colInt_of_int64 rfl,
    rfl, rfl, rfl, rfl, rfl, colInt_of_int64 rfl, colInt_of_int64 rfl,
    congrArg _ (colText_of_textOrNull rfl), colText_of_textOrNull rfl, colText_of_textOrNull rfl,
    colText_of_textOrNull rfl, congrArg _ (colInt_of_int64 rfl), htoken, colText_of_textOrNull rfl,
    colInt_of_int64 rfl, colBool_of_bindBool rfl, colInt_of_int64 rfl⟩

theorem toInt32_of_inInt32 {v : Int} (h : InInt32 v) : toInt32 v = v := Api.toInt32_of_mem h.1 h.2

/-- The row of a job is read back as the job exactly if every text of it was bound as a whole. -/
theorem readJobRow_eq_iff (h : StorableJob job) :
    readJobRow libc (bindings sql libc job) = job.persisted ↔ ∀ s ∈ texts libc job, Fits sql s := by
  have hpersisted : job.persisted.payload = job.payload := by
    simp only [Job.persisted, h.payload_ne, Bool.false_eq_true, if_false]
  have hpayload : readPayload libc (boundText sql (payloadText libc job)) = job.payload ↔
      Fits sql (payloadText libc job) :=
    readPayload_eq_iff h.payload.plain h.payload.integral h.payload.height h.payload_ne
  have hresult := @readResult_eq_iff sql libc job h.result.plain h.result.integral h.result.height
  have htext := fun s => @boundText_eq_iff sql s
  rw [readJobRow_bindings, texts, toInt32_of_inInt32 h.priority, toInt32_of_inInt32 h.attempt,
    toInt32_of_inInt32 h.maxAttempts, toInt32_of_inInt32 h.pendingDeps]
  simp only [List.forall_mem_cons]
  constructor
  · intro heq
    rw [Job.persisted, Job.mk.injEq] at heq
    obtain ⟨hid, htype, hload, -, -, -, -, -, -, -, -, -, -, -, -, -, -, -, -, hres, herror, hworkflow, hnode, -, -,
      howner, -⟩ := heq
    rw [if_neg (by rw [h.payload_ne]; decide)] at hload
    exact ⟨(htext _).mp hid, (htext _).mp htype, hpayload.mp hload, hresult.mp hres, (htext _).mp herror,
      (htext _).mp hworkflow, (htext _).mp hnode, (htext _).mp howner, List.forall_mem_nil _⟩
  · rintro ⟨hid, htype, hload, hres, herror, hworkflow, hnode, howner, -⟩
    rw [(htext _).mpr hid, (htext _).mpr htype, hpayload.mpr hload, hresult.mpr hres, (htext _).mpr herror,
      (htext _).mpr hworkflow, (htext _).mpr hnode, (htext _).mpr howner, ← hpersisted]
    rfl

/-- The row of a job is written and comes back as the job, inserted or written over a row of the same id, and both
statements write the same row. -/
def Kept (sql : Sqlite) (libc : Libc) (job : Job) : Prop :=
  ∃ row, insertRow sql (bindings sql libc job) = some row ∧ readJobRow libc (select row) = job.persisted ∧
    ∀ old, Selects (bindings sql libc job) old → updateRow sql (bindings sql libc job) old = some row

/-- No column that must not be `NULL` is, if its text fits. -/
theorem notNull_of_fits (htype : Fits sql job.type) (hpayload : Fits sql (payloadText libc job)) :
    ∀ c ∈ notNull, insertValues (bindings sql libc job) c ≠ .null := by
  have htext : ∀ {s : String}, Fits sql s → (BindCall.text s).value sql ≠ .null := by
    intro s hs
    rw [BindCall.value, bindText_of_fits hs]
    exact SqlValue.noConfusion
  intro c hc
  rw [insertValues_eq, bindings]
  cases c with
  | type => exact (column_bound rfl).trans_ne (htext htype)
  | payload => exact (column_bound rfl).trans_ne (htext hpayload)
  | state => exact (column_bound rfl).trans_ne (htext (fits_state job.state))
  | jobId | result | error | workflowId | workflowNode | leaseOwner => exact absurd hc (by decide)
  | _ => exact (column_bound rfl).trans_ne SqlValue.noConfusion

/-- **The row of a job is kept exactly if SQLite takes each of its texts, and the row as a whole.** A text that is
longer than the limit is lost without an error. -/
theorem row_kept_iff (h : StorableJob job) : Kept sql libc job ↔
    (∀ s ∈ texts libc job, s.length ≤ sql.maxLength) ∧
      sql.recordSize (insertValues (bindings sql libc job)) ≤ sql.maxLength := by
  have hread := @readJobRow_eq_iff sql libc job h
  constructor
  · rintro ⟨row, hinsert, hkept, -⟩
    rw [insertRow] at hinsert
    split_ifs at hinsert with hadmits
    cases hinsert
    rw [select_insertValues rfl, hread] at hkept
    exact ⟨hkept, hadmits.2⟩
  · rintro ⟨hfits, hsize⟩
    have hinsert : insertRow sql (bindings sql libc job) = some (insertValues (bindings sql libc job)) :=
      if_pos ⟨notNull_of_fits (hfits _ (by simp [texts])) (hfits _ (by simp [texts])), hsize⟩
    refine ⟨_, hinsert, ?_, fun old hold => ?_⟩
    · rw [select_insertValues rfl]
      exact hread.mpr hfits
    · rw [updateRow_eq_insertRow hold, hinsert]

theorem inInt32_of_le {v : Int} (hlo : 0 ≤ v) (hhi : v ≤ 1) : InInt32 v :=
  ⟨le_trans (by decide) hlo, lt_of_le_of_lt hhi (by decide)⟩

theorem storable_null : Storable .null := ⟨.null, .null, by decide⟩

/-- A running job with a lease and no result yet. -/
def leasedJob : Job :=
  { jobId := "job-1", type := "resize", payload := .object [(text "width", .int 128)], state := .running,
    attempt := 1,
    leaseToken := 18446744073709551615, leaseOwner := "worker-1" }

theorem storable_leasedJob : StorableJob leasedJob where
  priority := inInt32_of_le (by decide) (by decide)
  attempt := inInt32_of_le (by decide) (by decide)
  maxAttempts := inInt32_of_le (by decide) (by decide)
  pendingDeps := inInt32_of_le (by decide) (by decide)
  payload :=
    { plain := .object _ (List.forall_mem_singleton.mpr (.int 128 (by decide))) (List.nodup_singleton _)
      integral := .object _ (List.forall_mem_singleton.mpr (.int 128))
      height := by decide }
  payload_ne := rfl
  result := storable_null

/-- SQLite with its default limit, for rows that are small. -/
def smallRows : Sqlite := { recordSize := fun _ => 0 }

theorem kept_leasedJob : StorableJob leasedJob ∧ Kept smallRows zeroLibc leasedJob := by
  refine ⟨storable_leasedJob, (row_kept_iff storable_leasedJob).mpr ⟨fun s hs => ?_, Nat.zero_le _⟩⟩
  have hall : ∀ s ∈ texts zeroLibc leasedJob, s.length < 100 := by decide
  exact (hall s hs).le.trans (by decide)

/-- A job whose handler failed with a message of `n` bytes. -/
def failedJob (n : ℕ) : Job :=
  { jobId := "job-1", type := "echo", state := .failed, attempt := 1, error := String.ofList (List.replicate n 'x') }

theorem storable_failedJob (n : ℕ) : StorableJob (failedJob n) where
  priority := inInt32_of_le (le_refl 0) zero_le_one
  attempt := inInt32_of_le zero_le_one (le_refl 1)
  maxAttempts := inInt32_of_le zero_le_one (le_refl 1)
  pendingDeps := inInt32_of_le (le_refl 0) zero_le_one
  payload := ⟨.object [] (List.forall_mem_nil _) List.nodup_nil, .object [] (List.forall_mem_nil _), Nat.zero_le 64⟩
  payload_ne := rfl
  result := storable_null

/-- A message of one byte more than the limit: the row is written without an error, and holds no message. -/
theorem error_lost :
    (insertRow smallRows (bindings smallRows zeroLibc (failedJob 1000000001))).isSome ∧
      ¬ Kept smallRows zeroLibc (failedJob 1000000001) := by
  have herror : (failedJob 1000000001).error.length = 1000000001 := by
    rw [failedJob, String.length_ofList, List.length_replicate]
  refine ⟨?_, fun hkept => ?_⟩
  · have hadmits : Admits smallRows (insertValues (bindings smallRows zeroLibc (failedJob 1000000001))) :=
      ⟨notNull_of_fits (fits_of_length (show 4 ≤ 30 by decide)) (fits_of_short (show 2 ≤ 30 by decide)),
        Nat.zero_le _⟩
    rw [insertRow, if_pos hadmits]
    rfl
  · have hfits := ((row_kept_iff (storable_failedJob _)).mp hkept).1 (failedJob 1000000001).error
      (by simp only [texts, List.mem_cons, true_or, or_true])
    rw [herror] at hfits
    exact absurd hfits (by decide)

end JobRow

end DistributedJobEngine
