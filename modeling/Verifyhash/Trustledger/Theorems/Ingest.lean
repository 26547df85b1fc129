import Verifyhash.Trustledger.Ingest

namespace Ingest

open Words Fallible CsvState

-- The rows of a CSV text, which end at the line breaks outside of quotes.
def splitRows (inQuotes : Bool) : JsString → List JsString
  | []     => [[]]
  | c :: s =>
    if c = 10 ∧ ¬ inQuotes then [] :: splitRows inQuotes s
    else (splitRows (if c = 34 then !inQuotes else inQuotes) s).modifyHead (c :: ·)

-- The fields of one row.
def fields (raw : JsString) : List JsString :=
  (scan ⟨[], [], [], false⟩ raw).pushField.row

-- The rows which are not blank. The first of them is the header.
def nonBlankRows (text : JsString) : List JsString :=
  (splitRows false <| normalizeNewlines text).filter fun raw => ¬ isBlank (fields raw)

-- Every quoted field is closed.
def QuotesClosed (text : JsString) : Prop :=
  Even (text.count 34)

instance : Decidable (QuotesClosed text) :=
  inferInstanceAs <| Decidable (Even _)

inductive Tag
  | opening
  | closing
  deriving DecidableEq

-- The tags of transactions, in order.
def tags : JsString → List Tag
  | []     => []
  | u :: s =>
    if startsWith "<stmttrn>" (u :: s) then .opening :: tags s
    else if startsWith "</stmttrn>" (u :: s) then .closing :: tags s
    else tags s

-- Every opening tag is followed by a closing tag, before the next opening tag.
def isTerminated : List Tag → Bool
  | []                        => true
  | .closing :: ts            => isTerminated ts
  | .opening :: .closing :: ts => isTerminated ts
  | .opening :: _             => false

-- No transaction of a text is lost in the records.
def Lossless (format : Format) (text : JsString) (records : List Record) : Prop :=
  match format with
  | .csv => QuotesClosed text ∧ records.length = (nonBlankRows text).length - 1
  | .ofx => records.length = (tags text).count .opening

instance : Decidable (Lossless format text records) :=
  match format with
  | .csv => inferInstanceAs <| Decidable (_ ∧ _)
  | .ofx => inferInstanceAs <| Decidable (_ = _)

-- Every quoted field, or every transaction, has an end.
def Terminated (format : Format) (text : JsString) : Prop :=
  match format with
  | .csv => QuotesClosed text
  | .ofx => isTerminated (tags text)

instance : Decidable (Terminated format text) :=
  match format with
  | .csv => inferInstanceAs <| Decidable (QuotesClosed _)
  | .ofx => inferInstanceAs <| Decidable (_ = true)

theorem splitRows_newline : splitRows false (10 :: s) = [] :: splitRows false s := by
  simp [splitRows]

theorem splitRows_cons {q : Bool} (h : ¬ (c = 10 ∧ ¬ q)) :
    splitRows q (c :: s) = (splitRows (if c = 34 then !q else q) s).modifyHead (c :: ·) := by
  rw [splitRows, if_neg h]

theorem exists_splitRows (q : Bool) (s : JsString) : ∃ p ps, splitRows q s = p :: ps := by
  induction s generalizing q
  case nil => exact ⟨[], [], rfl⟩
  case cons c s ih =>
    by_cases h : c = 10 ∧ ¬ q
    case pos => exact ⟨[], splitRows q s, by rw [splitRows, if_pos h]⟩
    case neg =>
      obtain ⟨p, ps, hp⟩ := ih (if c = 34 then !q else q)
      exact ⟨c :: p, ps, by rw [splitRows_cons h, hp, List.modifyHead_cons]⟩

-- The rows which are made of the first part of a text, in some state, and of its other parts.
def rowsFrom (row : List JsString) (field : JsString) (q : Bool) : List JsString → List (List JsString)
  | []      => []
  | p :: ps => (scan ⟨[], row, field, q⟩ p).pushField.row :: ps.map fields

theorem rows_pushRow (st : CsvState) :
    st.pushRow.rows = st.rows ++ [st.pushField.row].filter fun row => ¬ isBlank row := by
  rw [pushRow]
  dsimp only
  split_ifs with h <;> simp [h]

theorem scan_cons (h : ¬ (c = 34 ∧ s.head? = some 34)) (st : CsvState) : scan st (c :: s) = scan (st.step c) s := by
  rw [scan]
  rintro s' rfl rfl
  exact h ⟨rfl, rfl⟩

-- The part of a text up to a line break starts like the text.
theorem head?_splitRows (h : splitRows q s = p :: ps) (hp : p.head? = some 34) : s.head? = some 34 := by
  cases s
  case nil =>
    obtain ⟨rfl, _⟩ := List.cons.inj h
    simp at hp
  case cons c s =>
    by_cases hc : c = 10 ∧ ¬ q
    case pos =>
      rw [splitRows, if_pos hc] at h
      obtain ⟨rfl, _⟩ := List.cons.inj h
      simp at hp
    case neg =>
      obtain ⟨p', ps', hs⟩ := exists_splitRows (if c = 34 then !q else q) s
      rw [splitRows_cons hc, hs, List.modifyHead_cons] at h
      obtain ⟨rfl, _⟩ := List.cons.inj h
      exact hp

-- The rows so far only change at a line break.
theorem step_eq {q : Bool} (h : ¬ (c = 10 ∧ ¬ q)) (rows : List (List JsString)) (row : List JsString) (field : JsString) :
    step ⟨rows, row, field, q⟩ c = { step ⟨[], row, field, q⟩ c with rows } ∧
      (step ⟨[], row, field, q⟩ c).rows = [] ∧
      (step ⟨[], row, field, q⟩ c).inQuotes = if c = 34 then !q else q := by
  cases q
  case true =>
    simp only [step, if_true]
    split_ifs <;> exact ⟨rfl, rfl, rfl⟩
  case false =>
    have hc : c ≠ 10 := fun hc => h ⟨hc, by simp⟩
    simp only [step, Bool.false_eq_true, if_false, hc]
    split_ifs <;> exact ⟨rfl, rfl, rfl⟩

-- The loop makes the rows of the parts, one after the other.
theorem rows_scan (st : CsvState) (s : JsString) : (scan st s).pushRow.rows =
    st.rows ++ (rowsFrom st.row st.field st.inQuotes <| splitRows st.inQuotes s).filter fun row => ¬ isBlank row := by
  induction st, s using scan.induct
  case case1 st =>
    rw [scan, rows_pushRow, splitRows, rowsFrom, scan]
    rfl
  case case2 st s hq ih =>
    obtain ⟨rows, row, field, q⟩ := st
    obtain rfl : q = true := hq
    obtain ⟨p, ps, hp⟩ := exists_splitRows true s
    have hs : splitRows true (34 :: 34 :: s) = (34 :: 34 :: p) :: ps := by
      rw [splitRows_cons (c := 34) (by decide), splitRows_cons (c := 34) (by decide)]
      simp [hp]
    rw [scan, if_pos rfl, ih]
    simp only [hs, hp, rowsFrom]
    rw [scan, if_pos rfl]
  case case3 st s hq ih =>
    obtain ⟨rows, row, field, q⟩ := st
    obtain rfl : q = false := by simpa using hq
    obtain ⟨p, ps, hp⟩ := exists_splitRows false s
    have ht : splitRows true (34 :: s) = (34 :: p) :: ps := by
      rw [splitRows_cons (c := 34) (by decide)]
      simp [hp]
    have hs : splitRows false (34 :: 34 :: s) = (34 :: 34 :: p) :: ps := by
      rw [splitRows_cons (c := 34) (by decide)]
      simp [ht]
    rw [scan, if_neg (by simp), ih]
    simp only [step, hs, ht, rowsFrom, if_true, Bool.false_eq_true, if_false]
    rw [scan, if_neg (by simp)]
    rfl
  case case4 st c s hn ih =>
    have hc : ¬ (c = 34 ∧ s.head? = some 34) := fun ⟨hc, hs⟩ => by
      obtain ⟨s', rfl⟩ := List.head?_eq_some_iff.mp hs
      exact hn s' hc rfl
    rw [scan_cons hc, ih]
    obtain ⟨rows, row, field, q⟩ := st
    by_cases h : c = 10 ∧ ¬ q
    case pos =>
      obtain ⟨rfl, hq⟩ := h
      obtain rfl : q = false := by simpa using hq
      obtain ⟨p, ps, hp⟩ := exists_splitRows false s
      have hstep : step ⟨rows, row, field, false⟩ 10 = pushRow ⟨rows, row, field, false⟩ := rfl
      rw [hstep, rows_pushRow]
      have hr : rowsFrom row field false ([] :: p :: ps) = [row ++ [field]] ++ rowsFrom [] [] false (p :: ps) := rfl
      rw [splitRows_newline, hp, hr, List.filter_append, ←List.append_assoc, ←hp]
      rfl
    case neg =>
      obtain ⟨p, ps, hp⟩ := exists_splitRows (if c = 34 then !q else q) s
      have hcp : ¬ (c = 34 ∧ p.head? = some 34) := fun ⟨hc', hs⟩ => hc ⟨hc', head?_splitRows hp hs⟩
      obtain ⟨hs, hr, hq⟩ := step_eq h rows row field
      rw [splitRows_cons h, hs, hq, hp, List.modifyHead_cons, rowsFrom, rowsFrom, scan_cons hcp]
      congr 4
      generalize step ⟨[], row, field, q⟩ c = st at hr hq
      obtain ⟨rows', row', field', q'⟩ := st
      obtain rfl : rows' = [] := hr
      rw [←hq]

-- The rows are the parts which are not blank.
theorem length_parseCSV (text : JsString) : (parseCSV text).length = (nonBlankRows text).length := by
  have hp : parseCSV text = (scan ⟨[], [], [], false⟩ (normalizeNewlines text)).pushRow.rows := by
    rw [parseCSV]
    split_ifs with h
    case pos => rfl
    case neg =>
      simp only [not_or, not_not] at h
      rw [rows_pushRow, pushField, h.left, h.right.left]
      simp [isBlank, trim]
  obtain ⟨p, ps, hs⟩ := exists_splitRows false (normalizeNewlines text)
  have hr : rowsFrom [] [] false (p :: ps) = (p :: ps).map fields := rfl
  rw [hp, rows_scan, nonBlankRows]
  simp only [hs, hr, List.nil_append, List.filter_map, List.length_map]
  rfl

-- The number of blocks which are ended, inside of a block or not.
def completed : Bool → List Tag → ℕ
  | _, []                  => 0
  | _, .opening :: ts      => completed true ts
  | true, .closing :: ts   => completed false ts + 1
  | false, .closing :: ts  => completed false ts

theorem not_opening_and_closing (h : startsWith "<stmttrn>" s) : ¬ startsWith "</stmttrn>" s := by
  intro h'
  have hp := List.prefix_or_prefix_of_prefix (List.isPrefixOf_iff_prefix.mp h) (List.isPrefixOf_iff_prefix.mp h')
  revert hp
  decide

theorem length_blocksFrom (b : Option JsString) (s : JsString) :
    (blocksFrom b s).length = completed b.isSome (tags s) := by
  induction s generalizing b
  case nil => cases b <;> rfl
  case cons u s ih =>
    rw [tags]
    by_cases ho : startsWith "<stmttrn>" (u :: s)
    case pos =>
      have hc := not_opening_and_closing ho
      rw [if_pos ho, completed]
      cases b
      case none => rw [blocksFrom, if_pos ho, ih]; rfl
      case some => rw [blocksFrom, if_neg hc, ih]; rfl
    case neg =>
      rw [if_neg ho]
      by_cases hc : startsWith "</stmttrn>" (u :: s)
      case pos =>
        rw [if_pos hc]
        cases b
        case none => rw [blocksFrom, if_neg ho, ih]; rfl
        case some => rw [blocksFrom, if_pos hc, List.length_cons, ih]; rfl
      case neg =>
        rw [if_neg hc]
        cases b
        case none => rw [blocksFrom, if_neg ho, ih]
        case some => rw [blocksFrom, if_neg hc, ih]

-- Each block which is ended has an opening tag, and each opening tag has a block if all of them are terminated.
theorem completed_le (ts : List Tag) :
    (completed false ts ≤ ts.count .opening ∧ (completed false ts = ts.count .opening ↔ isTerminated ts)) ∧
    (completed true ts ≤ ts.count .opening + 1 ∧
      (completed true ts = ts.count .opening + 1 ↔ isTerminated (.opening :: ts))) := by
  induction ts
  case nil => simp [completed, isTerminated]
  case cons t ts ih =>
    obtain ⟨⟨hf, hft⟩, ht, htt⟩ := ih
    cases t
    case opening =>
      have hc : (Tag.opening :: ts).count .opening = ts.count .opening + 1 := List.count_cons_self
      have hn : ¬ completed true ts = ts.count .opening + 1 + 1 := by omega
      rw [hc, completed, completed]
      exact ⟨⟨ht, htt⟩, by omega, by simp [hn, isTerminated]⟩
    case closing =>
      have hc : (Tag.closing :: ts).count .opening = ts.count .opening := List.count_cons_of_ne <| by decide
      rw [hc, completed, completed]
      exact ⟨⟨hf, by rw [hft, isTerminated]⟩, by omega, by rw [Nat.add_right_cancel_iff, hft, isTerminated]⟩

theorem length_ofxBlocks (h : ofxBlocks text = .ok blocks) : blocks.length = completed false (tags text) := by
  rw [ofxBlocks] at h
  split_ifs at h
  obtain rfl := Except.ok.inj h
  exact length_blocksFrom none text

section

variable {toLowerCase : JsString → JsString}

theorem length_parseRows (h : parseRows toLowerCase cfg columnMap text = .ok records) :
    records.length = (nonBlankRows text).length - 1 := by
  rw [←length_parseCSV]
  rw [parseRows] at h
  cases hr : (parseCSV text).head?
  case none => simp [hr] at h
  case some header =>
    simp only [hr, bind_eq_ok] at h
    obtain ⟨cols, -, _, -, h⟩ := h
    split_ifs at h
    · cases h
    · rw [length_mapM h]
      simp [dataRows]

-- Nothing is lost exactly if everything is terminated.
theorem parseBankStatement_lossless (toLowerCase : JsString → JsString) {format : Option Format}
    {columnMap : Option ColumnMap} {text : JsString} {records : List Record}
    (h : parseBankStatement toLowerCase format columnMap (some text) = .ok records) :
    Lossless (formatOf format text) text records ↔ Terminated (formatOf format text) text := by
  rw [parseBankStatement] at h
  cases hf : formatOf format text
  case csv =>
    simp only [hf] at h
    exact and_iff_left_of_imp fun _ => length_parseRows h
  case ofx =>
    simp only [hf] at h
    rw [parseOFX, bind_eq_ok] at h
    obtain ⟨blocks, hb, h⟩ := h
    have hl : records.length = completed false (tags text) := by
      rw [length_mapM h, List.length_zipIdx, length_ofxBlocks hb]
    rw [Lossless, Terminated, hl]
    exact (completed_le _).left.right

end

-- A text with a row, and a transaction, which are lost.
def openQuote : JsString :=
  js "Date,Amount,Memo\n2024-01-05,1.00,\"rent\n2024-01-06,2.00,fee\n"

def openTransaction : JsString :=
  js <| "<OFX><STMTTRN><DTPOSTED>20240105<TRNAMT>1.00<STMTTRN><DTPOSTED>20240106<TRNAMT>2.00</STMTTRN></OFX>"

theorem parseBankStatement_loses :
    (∃ records, parseBankStatement Hex.toLowerCase none none (some openQuote) = .ok records ∧
      ¬ Lossless (formatOf none openQuote) openQuote records) ∧
    ∃ records, parseBankStatement Hex.toLowerCase none none (some openTransaction) = .ok records ∧
      ¬ Lossless (formatOf none openTransaction) openTransaction records := by
  constructor
  · refine ⟨[⟨js "2024-01-05", 100, js "rent\n2024-01-06,2.00,fee", .fee, [], .bank⟩], ?_, ?_⟩
    · decide +kernel
    · decide +kernel
  · refine ⟨[⟨js "2024-01-05", 100, [], .deposit, [], .bank⟩], ?_, ?_⟩
    · decide +kernel
    · decide +kernel

-- The first text with its quote closed.
def closedQuote : JsString :=
  js "Date,Amount,Memo\n2024-01-05,1.00,\"rent\"\n2024-01-06,2.00,fee\n"

theorem parseBankStatement_lossless_closedQuote : ∃ records,
    parseBankStatement Hex.toLowerCase none none (some closedQuote) = .ok records ∧
      Lossless (formatOf none closedQuote) closedQuote records := by
  refine ⟨[⟨js "2024-01-05", 100, js "rent", .deposit, [], .bank⟩, ⟨js "2024-01-06", 200, js "fee", .fee, [], .bank⟩], ?_, ?_⟩
  · decide +kernel
  · refine (@parseBankStatement_lossless Hex.toLowerCase none none closedQuote _ ?_).mpr ?_
    · decide +kernel
    · decide +kernel

end Ingest
