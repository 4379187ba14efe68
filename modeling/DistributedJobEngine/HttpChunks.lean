import DistributedJobEngine.HttpParser

/-! How the verdict of the request parser depends on the way its input is cut into chunks. It does not,
unless a chunk ends beyond the header limit and inside the blank line that ends a header block within the
limit: the limit is tested against the whole buffer as long as the blank line is not complete, and against
its position afterwards. -/

namespace DistributedJobEngine

open LibText

namespace HttpRequestParser

variable {p : HttpRequestParser} {s t : Bytes} {stop : ℕ}

/-- The verdict on a text that is fed at once. -/
def verdictOf (s : Bytes) : HttpVerdict := verdict (feed {} s)

/-- The verdict on a text whose headers were parsed. -/
def bodyVerdict (s : Bytes) (stop : ℕ) (req : HttpRequest) (n : ℕ) : HttpVerdict :=
  if s.length - (stop + 4) < n then .needMore
  else .complete { req with body := (s.drop (stop + 4)).take n } (stop + 4 + n)

/-- The verdict on a text whose blank line is at `stop`. -/
def headVerdict (s : Bytes) (stop : ℕ) : HttpVerdict :=
  if maxHeaderBytes < stop then .error 431
  else
    match parseHeaders (s.take stop) with
    | .error e => .error e.status
    | .ok (req, n) => bodyVerdict s stop req n

theorem verdict_finishBody (p : HttpRequestParser) (hstart : p.bodyStart = stop + 4) :
    verdict p.finishBody = bodyVerdict p.buffer stop p.req p.bodyExpected := by
  unfold finishBody bodyVerdict
  rw [hstart]
  split <;> rfl

/-- The verdict of a parser that has not seen the blank line yet depends on its buffer only. -/
theorem verdict_feed_of_not_done (hdone : p.headersDone = false) (d : Bytes) :
    verdict (p.feed d) =
      match findSub terminator (p.buffer ++ d) with
      | none => if maxHeaderBytes < (p.buffer ++ d).length then .error 431 else .needMore
      | some stop => headVerdict (p.buffer ++ d) stop := by
  unfold feed headVerdict
  simp only [hdone, Bool.false_eq_true, if_false]
  cases findSub terminator (p.buffer ++ d) with
  | none =>
      simp only
      split <;> rfl
  | some stop =>
      simp only
      split
      · rfl
      · cases parseHeaders ((p.buffer ++ d).take stop) with
        | error e => rfl
        | ok r => exact verdict_finishBody _ rfl

theorem verdictOf_eq (s : Bytes) :
    verdictOf s =
      match findSub terminator s with
      | none => if maxHeaderBytes < s.length then .error 431 else .needMore
      | some stop => headVerdict s stop :=
  verdict_feed_of_not_done (p := {}) rfl s

/-- A parser that has been fed `s` and asks for more. -/
structure Fed (p : HttpRequestParser) (s : Bytes) : Prop where
  buffer : p.buffer = s
  waits : verdictOf s = .needMore
  fresh : p.headersDone = false → findSub terminator s = none
  done : p.headersDone = true → ∃ stop, findSub terminator s = some stop ∧ stop ≤ maxHeaderBytes ∧
    parseHeaders (s.take stop) = .ok (p.req, p.bodyExpected) ∧ p.bodyStart = stop + 4

theorem fed_nil : Fed {} [] where
  buffer := rfl
  waits := rfl
  fresh _ := rfl
  done h := by cases h

theorem take_append_of_find (h : findSub terminator s = some stop) (t : Bytes) :
    (s ++ t).take stop = s.take stop := by
  have hlength := findSub_length h
  exact List.take_append_of_le_length (by omega)

theorem headVerdict_of_ok {r : HttpRequest × ℕ} (hstop : stop ≤ maxHeaderBytes)
    (hparse : parseHeaders (s.take stop) = .ok r) : headVerdict s stop = bodyVerdict s stop r.1 r.2 := by
  rw [headVerdict, if_neg (Nat.not_lt.mpr hstop), hparse]

/-- **A parser that was fed in parts** gives the verdict on everything it was fed. -/
theorem Fed.verdict_feed (h : Fed p s) (d : Bytes) : verdict (p.feed d) = verdictOf (s ++ d) := by
  cases hdone : p.headersDone with
  | false => rw [verdict_feed_of_not_done hdone, verdictOf_eq, h.buffer]
  | true =>
      obtain ⟨stop, hfind, hstop, hparse, hstart⟩ := h.done hdone
      rw [verdictOf_eq, findSub_append hfind]
      simp only
      rw [headVerdict_of_ok hstop (by rw [take_append_of_find hfind]; exact hparse)]
      unfold feed
      simp only [hdone, if_true]
      rw [← h.buffer]
      exact verdict_finishBody _ hstart

theorem verdict_eq_needMore {r : HttpStatus × HttpRequestParser} : verdict r = .needMore ↔ r.1 = .needMore := by
  obtain ⟨status, p⟩ := r
  cases status <;> simp [verdict]

theorem finishBody_needMore (h : p.finishBody.1 = .needMore) : p.finishBody.2 = p := by
  unfold finishBody at h ⊢
  split at h
  · next hlt => rw [if_pos hlt]
  · cases h

theorem Fed.next (h : Fed p s) {d : Bytes} (hmore : (p.feed d).1 = .needMore) : Fed (p.feed d).2 (s ++ d) := by
  have hwaits : verdictOf (s ++ d) = .needMore := by
    rw [← h.verdict_feed]
    exact verdict_eq_needMore.mpr hmore
  cases hdone : p.headersDone with
  | true =>
      obtain ⟨stop, hfind, hstop, hparse, hstart⟩ := h.done hdone
      unfold feed at hmore ⊢
      simp only [hdone, if_true] at hmore ⊢
      rw [finishBody_needMore hmore]
      exact ⟨by rw [h.buffer], hwaits, fun hf => (by cases hf),
        fun _ => ⟨stop, findSub_append hfind, hstop, by rw [take_append_of_find hfind]; exact hparse, hstart⟩⟩
  | false =>
      unfold feed at hmore ⊢
      simp only [hdone, Bool.false_eq_true, if_false] at hmore ⊢
      cases hfind : findSub terminator (p.buffer ++ d) with
      | none =>
          rw [hfind] at hmore
          simp only at hmore ⊢
          split at hmore
          · cases hmore
          · next hshort =>
              rw [if_neg hshort]
              exact ⟨by rw [h.buffer], hwaits, fun _ => by rw [← h.buffer]; exact hfind,
                fun hd => absurd hd (by simp)⟩
      | some stop =>
          rw [hfind] at hmore
          simp only at hmore ⊢
          split at hmore
          · cases hmore
          · next hstop =>
              rw [if_neg hstop]
              cases hparse : parseHeaders ((p.buffer ++ d).take stop) with
              | error e =>
                  rw [hparse] at hmore
                  cases hmore
              | ok r =>
                  rw [hparse] at hmore
                  simp only at hmore ⊢
                  rw [finishBody_needMore hmore]
                  refine ⟨by rw [h.buffer], hwaits, fun hf => (by cases hf), fun _ => ⟨stop, ?_, ?_, ?_, rfl⟩⟩
                  · rw [← h.buffer]
                    exact hfind
                  · exact Nat.le_of_not_lt hstop
                  · rw [← h.buffer]
                    exact hparse

/-! ### The statuses of refused headers -/

/-- A refusal of the header block itself never has the status of one that is too long. -/
def Never431 {α : Type} (x : Except HttpError α) : Prop := ∀ e, x = .error e → e.status ≠ 431

theorem never431_ok {α : Type} (a : α) : Never431 (.ok a : Except HttpError α) := fun _ h => by cases h

theorem never431_error {α : Type} {e : HttpError} (h : e.status ≠ 431) :
    Never431 (.error e : Except HttpError α) := fun e' he => by
  cases he
  exact h

theorem Never431.bind {α β : Type} {x : Except HttpError α} {f : α → Except HttpError β} (hx : Never431 x)
    (hf : ∀ a, Never431 (f a)) : Never431 (x >>= f) := by
  cases x with
  | error e => exact fun e' he => hx e' (by cases he; rfl)
  | ok a => exact hf a

theorem never431_requestLine (line : Bytes) : Never431 (parseRequestLine line) := by
  unfold parseRequestLine
  repeat' split
  all_goals first | exact never431_ok _ | exact never431_error (by decide)

theorem never431_target (r : HttpRequest) : Never431 (parseTarget r) := by
  unfold parseTarget
  simp only
  split
  all_goals split
  all_goals first | exact never431_ok _ | exact never431_error (by decide)

theorem never431_headerLine (r : HttpRequest) (line : Bytes) : Never431 (parseHeaderLine r line) := by
  unfold parseHeaderLine
  dsimp only
  repeat' split
  all_goals first | exact never431_ok _ | exact never431_error (by decide)

theorem never431_headerLines (lines : List Bytes) (r : HttpRequest) :
    Never431 (lines.foldlM parseHeaderLine r) := by
  induction lines generalizing r with
  | nil => exact never431_ok r
  | cons line lines ih => exact (never431_headerLine r line).bind fun r => ih r

theorem never431_bodyLength (r : HttpRequest) : Never431 (bodyLength r) := by
  unfold bodyLength
  dsimp only
  repeat' split
  all_goals first | exact never431_ok _ | exact never431_error (by decide)

theorem never431_parseHeaders (head : Bytes) : Never431 (parseHeaders head) := by
  unfold parseHeaders
  split
  · exact never431_error (by decide)
  · exact (never431_requestLine _).bind fun r => (never431_target r).bind fun r =>
      (never431_headerLines _ r).bind fun r => (never431_bodyLength _).bind fun n => never431_ok _

/-! ### Chunks -/

/-- A verdict on complete headers stands, whatever comes later. -/
theorem verdictOf_append (hfind : findSub terminator s = some stop) (hfinal : verdictOf s ≠ .needMore) (t : Bytes) :
    verdictOf (s ++ t) = verdictOf s := by
  have hlength := findSub_length hfind
  have hfour : terminator.length = 4 := rfl
  rw [verdictOf_eq, hfind] at hfinal
  rw [verdictOf_eq, findSub_append hfind, verdictOf_eq, hfind]
  simp only at hfinal ⊢
  unfold headVerdict at hfinal ⊢
  rw [take_append_of_find hfind]
  split
  · rfl
  · next hstop =>
      rw [if_neg hstop] at hfinal
      cases hparse : parseHeaders (s.take stop) with
      | error e => rfl
      | ok r =>
          rw [hparse] at hfinal
          simp only [bodyVerdict] at hfinal ⊢
          have henough : ¬s.length - (stop + 4) < r.2 := fun hlt => hfinal (if_pos hlt)
          have hmore : ¬(s ++ t).length - (stop + 4) < r.2 := by
            rw [List.length_append]
            omega
          rw [if_neg henough, if_neg hmore, List.drop_append_of_le_length (by omega),
            List.take_append_of_le_length (by rw [List.length_drop]; omega)]

/-- One of the chunks that follow `s` ends beyond the limit and inside the blank line, which itself starts
within the limit. -/
def Late (s : Bytes) (chunks : List Bytes) : Prop :=
  ∃ n stop, findSub terminator (s ++ chunks.flatten) = some stop ∧ stop ≤ maxHeaderBytes ∧
    maxHeaderBytes < (s ++ (chunks.take n).flatten).length ∧ (s ++ (chunks.take n).flatten).length < stop + 4

/-- What a waiting parser has been fed does not end there. -/
theorem Fed.not_inside (h : Fed p s) (hfind : findSub terminator (s ++ t) = some stop) :
    ¬(maxHeaderBytes < s.length ∧ s.length < stop + 4) := by
  rintro ⟨hlong, hinside⟩
  have hwaits := h.waits
  rw [verdictOf_eq] at hwaits
  cases hnone : findSub terminator s with
  | none =>
      rw [hnone] at hwaits
      simp only [if_pos hlong] at hwaits
      cases hwaits
  | some stop' =>
      have hlength := findSub_length hnone
      have hfour : terminator.length = 4 := rfl
      rw [findSub_append hnone, Option.some.injEq] at hfind
      omega

theorem Fed.late_cons (h : Fed p s) {chunk : Bytes} {chunks : List Bytes} :
    Late s (chunk :: chunks) ↔ Late (s ++ chunk) chunks := by
  unfold Late
  rw [List.flatten_cons, ← List.append_assoc]
  constructor
  · rintro ⟨n, stop, hfind, hstop, hlong, hinside⟩
    cases n with
    | zero =>
        rw [List.append_assoc] at hfind
        rw [List.take_zero, List.flatten_nil, List.append_nil] at hlong hinside
        exact absurd ⟨hlong, hinside⟩ (h.not_inside hfind)
    | succ n =>
        rw [List.take_succ_cons, List.flatten_cons, ← List.append_assoc] at hlong hinside
        exact ⟨n, stop, hfind, hstop, hlong, hinside⟩
  · rintro ⟨n, stop, hfind, hstop, hlong, hinside⟩
    refine ⟨n + 1, stop, hfind, hstop, ?_, ?_⟩
    · rwa [List.take_succ_cons, List.flatten_cons, ← List.append_assoc]
    · rwa [List.take_succ_cons, List.flatten_cons, ← List.append_assoc]

/-- When a text gets a verdict, the verdict on the text and what follows is the same unless a chunk ends late
there. -/
theorem verdictOf_eq_iff (hfinal : verdictOf s ≠ .needMore) (chunks : List Bytes) :
    verdictOf s = verdictOf (s ++ chunks.flatten) ↔ ¬Late s chunks := by
  cases hfind : findSub terminator s with
  | some stop =>
      refine iff_of_true (verdictOf_append hfind hfinal _).symm ?_
      rintro ⟨n, stop', hfind', -, -, hinside⟩
      have hlength := findSub_length hfind
      have hfour : terminator.length = 4 := rfl
      rw [findSub_append hfind, Option.some.injEq] at hfind'
      rw [List.length_append] at hinside
      omega
  | none =>
      rw [verdictOf_eq, hfind] at hfinal ⊢
      simp only at hfinal ⊢
      have hlong : maxHeaderBytes < s.length := by
        by_contra hshort
        exact hfinal (if_neg hshort)
      rw [if_pos hlong, verdictOf_eq]
      cases hwhole : findSub terminator (s ++ chunks.flatten) with
      | none =>
          have hlonger : maxHeaderBytes < (s ++ chunks.flatten).length := by
            rw [List.length_append]
            omega
          simp only [if_pos hlonger, true_iff]
          rintro ⟨n, stop, hfind', -⟩
          rw [hwhole] at hfind'
          cases hfind'
      | some stop =>
          simp only [headVerdict]
          have hinside := lt_of_findSub_append hfind hwhole
          by_cases hstop : maxHeaderBytes < stop
          · rw [if_pos hstop]
            simp only [true_iff]
            rintro ⟨n, stop', hfind', hle, -⟩
            rw [hwhole, Option.some.injEq] at hfind'
            omega
          · rw [if_neg hstop]
            refine iff_of_false ?_ (not_not.mpr ⟨0, stop, hwhole, Nat.le_of_not_lt hstop, ?_, ?_⟩)
            · cases hparse : parseHeaders ((s ++ chunks.flatten).take stop) with
              | error e =>
                  have hstatus := never431_parseHeaders _ e hparse
                  simpa using Ne.symm hstatus
              | ok r =>
                  simp only [bodyVerdict]
                  split <;> simp
            · simpa using hlong
            · simpa [terminator] using hinside

/-- Feeding on in chunks: the verdict is that on the whole text, unless a chunk ends late. -/
theorem Fed.verdict_feedAll (h : Fed p s) (chunks : List Bytes) :
    verdict (p.feedAll chunks) = verdictOf (s ++ chunks.flatten) ↔ ¬Late s chunks := by
  induction chunks generalizing p s with
  | nil =>
      refine iff_of_true ?_ ?_
      · rw [List.flatten_nil, List.append_nil, h.waits]
        rfl
      · rintro ⟨n, stop, hfind, -, hlong, hinside⟩
        rw [List.take_nil, List.flatten_nil, List.append_nil] at hlong hinside
        exact h.not_inside hfind ⟨hlong, hinside⟩
  | cons chunk chunks ih =>
      rw [h.late_cons, List.flatten_cons, ← List.append_assoc, feedAll]
      have hverdict := h.verdict_feed chunk
      cases hstatus : (p.feed chunk).1 with
      | needMore =>
          rw [show p.feed chunk = (.needMore, (p.feed chunk).2) from Prod.ext hstatus rfl]
          exact ih (h.next hstatus)
      | complete =>
          rw [show p.feed chunk = (.complete, (p.feed chunk).2) from Prod.ext hstatus rfl] at hverdict ⊢
          simp only
          rw [hverdict]
          exact verdictOf_eq_iff (by rw [← hverdict]; simp [verdict]) chunks
      | error =>
          rw [show p.feed chunk = (.error, (p.feed chunk).2) from Prod.ext hstatus rfl] at hverdict ⊢
          simp only
          rw [hverdict]
          exact verdictOf_eq_iff (by rw [← hverdict]; simp [verdict]) chunks

/-- **The verdict does not depend on the chunks**, for every text and every way to cut it, exactly when no chunk
ends beyond the header limit and inside the blank line of a header block that is within the limit. -/
theorem chunking_irrelevant_iff (chunks : List Bytes) :
    verdict (feedAll {} chunks) = verdict (feed {} chunks.flatten) ↔
      ¬∃ n stop, findSub terminator chunks.flatten = some stop ∧ stop ≤ maxHeaderBytes ∧
        maxHeaderBytes < (chunks.take n).flatten.length ∧ (chunks.take n).flatten.length < stop + 4 :=
  fed_nil.verdict_feedAll chunks

/-! ### The blank line of a header block -/

def crlf : Bytes := [cr, lf]

theorem findSub_crlf {line : Bytes} (hne : line ≠ []) (hline : cr ∉ line) (t : Bytes) :
    findSub terminator (crlf ++ line ++ t) = (findSub terminator t).map (· + (line.length + 2)) := by
  obtain ⟨c, rest, rfl⟩ := List.exists_cons_of_ne_nil hne
  have hc : cr ≠ c := fun h => hline (by rw [h]; exact List.mem_cons_self)
  have hfirst : terminator.isPrefixOf (cr :: lf :: (c :: rest ++ t)) = false := by
    simp [terminator, List.isPrefixOf, hc]
  have hsecond : terminator.isPrefixOf (lf :: (c :: rest ++ t)) = false := by
    simp [terminator, List.isPrefixOf, cr, lf]
  have hrest := findSub_append_of_notMem [lf, cr, lf] hline t
  rw [show crlf ++ (c :: rest) ++ t = cr :: lf :: (c :: rest ++ t) from rfl, findSub, hfirst, findSub, hsecond]
  simp only [Bool.false_eq_true, if_false]
  rw [show findSub terminator (c :: rest ++ t) = findSub (cr :: [lf, cr, lf]) (c :: rest ++ t) from rfl, hrest,
    Option.map_map, Option.map_map]
  rfl

/-- The text of a header block: its lines, each free of CR. -/
def block (first : Bytes) (lines : List Bytes) : Bytes := first ++ (lines.map (crlf ++ ·)).flatten

theorem findSub_lines {lines : List Bytes} (hlines : ∀ line ∈ lines, line ≠ [] ∧ cr ∉ line) (rest : Bytes) :
    findSub terminator ((lines.map (crlf ++ ·)).flatten ++ (terminator ++ rest)) =
      some (lines.map (crlf ++ ·)).flatten.length := by
  induction lines with
  | nil => rfl
  | cons line lines ih =>
      rw [List.forall_mem_cons] at hlines
      rw [List.map_cons, List.flatten_cons, List.append_assoc, findSub_crlf hlines.1.1 hlines.1.2, ih hlines.2,
        Option.map_some, List.length_append, List.length_append]
      congr 1
      simp only [crlf, List.length_cons, List.length_nil]
      omega

/-- **The blank line is found where the block ends.** -/
theorem findSub_block {first : Bytes} {lines : List Bytes} (hfirst : cr ∉ first)
    (hlines : ∀ line ∈ lines, line ≠ [] ∧ cr ∉ line) (rest : Bytes) :
    findSub terminator (block first lines ++ (terminator ++ rest)) = some (block first lines).length := by
  have hrest := findSub_lines hlines rest
  have hskip := findSub_append_of_notMem [lf, cr, lf] hfirst
    ((lines.map (crlf ++ ·)).flatten ++ (terminator ++ rest))
  rw [block, List.append_assoc]
  refine hskip.trans ?_
  rw [show findSub (cr :: [lf, cr, lf]) ((lines.map (crlf ++ ·)).flatten ++ (terminator ++ rest)) =
    some (lines.map (crlf ++ ·)).flatten.length from hrest, Option.map_some, List.length_append, Nat.add_comm]

/-- A header line of 16367 bytes. -/
def longLine : Bytes := text "X: " ++ List.replicate 16364 97

theorem longLine_spec : longLine ≠ [] ∧ cr ∉ longLine ∧ longLine.length = 16367 := by
  refine ⟨List.append_ne_nil_of_left_ne_nil (by decide) _, fun hmem => ?_, ?_⟩
  · rcases List.mem_append.mp hmem with h | h
    · exact absurd h (by decide)
    · exact absurd (List.eq_of_mem_replicate h) (by decide)
  · rw [longLine, List.length_append, List.length_replicate]
    rfl

/-- A header block of 16383 bytes. -/
def longHead : Bytes := block (text "GET / HTTP/1.1") [longLine]

/-- Cut in the middle of its blank line the request does not get the verdict it gets in one piece. -/
theorem chunking_irrelevant_split :
    verdict (feedAll {} [longHead ++ crlf, crlf]) ≠ verdict (feed {} [longHead ++ crlf, crlf].flatten) := by
  obtain ⟨hne, hcr, hline⟩ := longLine_spec
  have hlength : longHead.length = 16383 := by
    rw [longHead, block, List.length_append, List.map_singleton, List.flatten_singleton, List.length_append, hline]
    rfl
  have hflatten : [longHead ++ crlf, crlf].flatten = longHead ++ (terminator ++ []) := by
    rw [List.flatten_cons, List.flatten_singleton, List.append_assoc]
    rfl
  have hfind : findSub terminator [longHead ++ crlf, crlf].flatten = some 16383 := by
    rw [hflatten, ← hlength]
    refine findSub_block (by decide) ?_ []
    rw [List.forall_mem_singleton]
    exact ⟨hne, hcr⟩
  have hfirst : ([longHead ++ crlf, crlf].take 1).flatten.length = 16385 := by
    rw [List.take_succ_cons, List.take_zero, List.flatten_singleton, List.length_append, hlength]
    rfl
  intro heq
  refine (fed_nil.verdict_feedAll [longHead ++ crlf, crlf]).mp heq ⟨1, 16383, hfind, by decide, ?_, ?_⟩
  · rw [List.nil_append, hfirst]
    decide
  · rw [List.nil_append, hfirst]
    decide

end HttpRequestParser

end DistributedJobEngine
