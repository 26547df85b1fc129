import Verifyhash.Trustledger.Diagnose

namespace Ingest

open Fallible

-- A computation whose errors are about one row.
def FailsAt (loc : Loc) (x : Except IngestError α) : Prop :=
  ∀ e, x = .error e → e.row = some loc.row

section

variable {loc : Loc}

theorem FailsAt.ok : FailsAt loc (.ok a : Except IngestError α) := by
  rintro e ⟨⟩

theorem FailsAt.pure : FailsAt loc (Pure.pure a : Except IngestError α) :=
  FailsAt.ok

theorem FailsAt.fail : FailsAt loc (.error (loc.fail message) : Except IngestError α) := by
  rintro e ⟨⟩
  rfl

theorem FailsAt.throw : FailsAt loc (throw (loc.fail message) : Except IngestError α) :=
  FailsAt.fail

theorem FailsAt.bind {x : Except IngestError α} {f : α → Except IngestError β} (hx : FailsAt loc x)
    (hf : ∀ a, FailsAt loc (f a)) : FailsAt loc (x >>= f) := by
  cases x
  case error e =>
    rintro e' ⟨⟩
    exact hx e rfl
  case ok a => exact hf a

theorem FailsAt.ite [Decidable p] {x y : Except IngestError α} (hx : FailsAt loc x) (hy : FailsAt loc y) :
    FailsAt loc (if p then x else y) := by
  split_ifs <;> assumption

-- A test which throws, and what follows it.
theorem FailsAt.check [Decidable p] {f : γ → Except IngestError α} {y : Except IngestError α} (hy : FailsAt loc y) :
    FailsAt loc (if p then (MonadExcept.throw (loc.fail message) >>= f) else y) := by
  split_ifs
  · exact .fail
  · exact hy

theorem failsAt_parseCents : FailsAt loc (parseCents raw field loc) := by
  cases raw
  case none => exact .throw
  case some raw =>
    rw [parseCents]
    dsimp only
    refine .check <| .check <| .check <| .check ?_
    split
    · exact .throw
    · exact .check .pure

theorem failsAt_dateParts : FailsAt loc (dateParts raw s loc) := by
  rw [dateParts]
  split
  · exact .ok
  · split
    · exact .ok
    · split
      · exact .ok
      · split
        · split
          · exact .ok
          · split
            · exact .fail
            · exact .ok
        · split
          · exact .ok
          · split
            · exact .fail
            · exact .ok
        · exact .fail

theorem failsAt_parseDate : FailsAt loc (parseDate raw loc) := by
  cases raw
  case none => exact .throw
  case some raw =>
    rw [parseDate]
    dsimp only
    refine .check <| .bind failsAt_dateParts fun parts => ?_
    split
    · exact .check .pure
    · exact .check <| .check .pure

theorem failsAt_splitAmount : FailsAt loc (splitAmount arr cols out into both neither loc) := by
  rw [splitAmount]
  dsimp only
  refine .check <| .check ?_
  split
  · exact .bind failsAt_parseCents fun _ => .pure
  · exact .bind failsAt_parseCents fun _ => .pure

theorem failsAt_splitRent : FailsAt loc (buildRentRollRecord.splitRent arr cols loc) := by
  rw [buildRentRollRecord.splitRent]
  dsimp only
  refine .check <| .check ?_
  split
  · exact .bind failsAt_parseCents fun _ => .pure
  · exact .bind failsAt_parseCents fun _ => .pure

section

variable {toLowerCase : JsString → JsString}

theorem failsAt_buildBankRecord : FailsAt loc (buildBankRecord toLowerCase arr cols hasSigned loc) := by
  refine .bind failsAt_parseDate fun _ => ?_
  exact .ite (.bind failsAt_parseCents fun _ => .pure) (.bind failsAt_splitAmount fun _ => .pure)

theorem failsAt_buildQuickBooksRecord : FailsAt loc (buildQuickBooksRecord toLowerCase arr cols hasSigned loc) := by
  refine .bind failsAt_parseDate fun _ => ?_
  exact .ite (.bind failsAt_parseCents fun _ => .pure) (.bind failsAt_splitAmount fun _ => .pure)

theorem failsAt_buildRentRollRecord : FailsAt loc (buildRentRollRecord toLowerCase arr cols hasSigned loc) := by
  refine .bind failsAt_parseDate fun _ => ?_
  split
  · exact .throw
  · exact .ite (.bind failsAt_parseCents fun _ => .pure) (.bind failsAt_splitRent fun _ => .pure)

theorem failsAt_buildOFXRecord : FailsAt loc (buildOFXRecord toLowerCase block loc) := by
  rw [buildOFXRecord]
  split
  · exact .throw
  · exact .bind failsAt_parseDate fun _ => .bind failsAt_parseCents fun _ => .pure

end

end

-- The error which is reported for a row.
def failure (row : ℕ) : Except IngestError Record → Option ReportError
  | .ok _    => none
  | .error e => some ⟨some row, e.message⟩

section

variable {build : α → ℕ → Except IngestError Record} {report : Report} {rows : List (α × ℕ)}

theorem errors_addAll : (report.addAll sampleSize build rows).errors =
    report.errors ++ rows.filterMap fun row => failure row.2 (build row.1 row.2) := by
  induction rows generalizing report
  case nil => simp [Report.addAll]
  case cons row rows ih =>
    rw [Report.addAll, List.foldl_cons]
    refine ih.trans ?_
    cases hb : build row.1 row.2
    case ok => simp [Report.add, failure, hb]
    case error => simp [Report.add, failure, hb]

theorem requiredMissing_addAll : (report.addAll sampleSize build rows).requiredMissing = report.requiredMissing := by
  induction rows generalizing report
  case nil => rfl
  case cons row rows ih =>
    rw [Report.addAll, List.foldl_cons]
    refine ih.trans ?_
    cases hb : build row.1 row.2 <;> rfl

-- If no row fails, then all of them are counted, and their records are collected.
theorem addAll_of_mapM_eq_ok (h : rows.mapM (fun row => build row.1 row.2) = .ok records) :
    (report.addAll sampleSize build rows).records = report.records ++ records ∧
    (report.addAll sampleSize build rows).okCount = report.okCount + records.length ∧
    (report.addAll sampleSize build rows).rowCount = report.rowCount + records.length := by
  induction rows generalizing report records
  case nil =>
    obtain rfl : [] = records := by simpa using h
    simp [Report.addAll]
  case cons row rows ih =>
    simp only [List.mapM_cons, bind_eq_ok, pure_eq_ok] at h
    obtain ⟨rec, hb, records, h, rfl⟩ := h
    rw [Report.addAll, List.foldl_cons, hb]
    obtain ⟨hr, ho, hc⟩ := @ih (report.add sampleSize row.2 (.ok rec)) records h
    refine ⟨hr.trans ?_, ho.trans ?_, hc.trans ?_⟩
    · simp [Report.add]
    · simp only [Report.add, List.length_cons]
      omega
    · simp only [Report.add, List.length_cons]
      omega

-- The first row which fails is the one at which the strict parser stops.
theorem head?_failures (hf : ∀ row ∈ rows, ∀ e, build row.1 row.2 = .error e → e.row = some row.2) :
    (rows.filterMap fun row => failure row.2 (build row.1 row.2)).head? =
      match rows.mapM fun row => build row.1 row.2 with
      | .ok _    => none
      | .error e => some ⟨e.row, e.message⟩ := by
  induction rows
  case nil => rfl
  case cons row rows ih =>
    obtain ⟨hr, hf⟩ := List.forall_mem_cons.mp hf
    rw [List.mapM_cons]
    cases hb : build row.1 row.2
    case error e =>
      rw [error_bind, List.filterMap_cons_some (b := ⟨some row.2, e.message⟩) <| by rw [hb]; rfl]
      simp [hr e hb]
    case ok rec =>
      rw [ok_bind, List.filterMap_cons_none <| by rw [hb]; rfl, ih hf]
      cases rows.mapM fun row => build row.1 row.2 <;> rfl

end

-- The errors and the missing columns of a report.
def Report.isClean (report : Report) : Prop :=
  report.errors = [] ∧ report.requiredMissing = []

-- The report agrees with the result of the strict parser.
structure Agrees (report : Report) (result : Except IngestError (List Record)) : Prop where
  isClean_iff : report.isClean ↔ ∃ records, result = .ok records
  records     : ∀ records, result = .ok records → report.records = records ∧ report.okCount = records.length ∧
    report.rowCount = records.length
  error       : ∀ e, result = .error e → e.row.isSome → report.errors.head? = some ⟨e.row, e.message⟩

theorem Agrees.fail {report : Report} {e : IngestError} (hr : e.row = none) (hc : ¬ report.isClean) :
    Agrees report (.error e) where
  isClean_iff := by simp [hc]
  records     := by rintro _ ⟨⟩
  error       := by
    rintro _ ⟨⟩ h
    rw [hr] at h
    cases h

-- The loop over the rows agrees with the strict one.
theorem Agrees.addAll {report : Report} {sampleSize : ℕ} {build : α → ℕ → Except IngestError Record} {rows : List (α × ℕ)}
    (hf : ∀ row ∈ rows, ∀ e, build row.1 row.2 = .error e → e.row = some row.2)
    (he : report.errors = []) (hm : report.requiredMissing = []) (hr : report.records = []) (ho : report.okCount = 0)
    (hc : report.rowCount = 0) :
    Agrees (report.addAll sampleSize build rows) (rows.mapM fun row => build row.1 row.2) where
  isClean_iff := by
    have hh := head?_failures hf
    rw [Report.isClean, errors_addAll, requiredMissing_addAll, he, hm, List.nil_append, ←List.head?_eq_none_iff, hh]
    cases rows.mapM fun row => build row.1 row.2 <;> simp
  records _ h := by
    obtain ⟨h₁, h₂, h₃⟩ := addAll_of_mapM_eq_ok h
    exact ⟨h₁.trans <| by simp [hr], h₂.trans <| by simp [ho], h₃.trans <| by simp [hc]⟩
  error _ h _ := by
    have hh := head?_failures hf
    rw [h] at hh
    rw [errors_addAll, he, List.nil_append, hh]

section

variable {toLowerCase : JsString → JsString}

theorem row_of_validateColumnMap (h : validateColumnMap toLowerCase columnMap header schema source = .error e) :
    e.row = none := by
  obtain ⟨entry, -, he⟩ := mapM_eq_error h
  by_cases hs : entry.1 ∉ schema.map (·.1)
  case pos =>
    rw [if_pos hs] at he
    cases he
    rfl
  case neg =>
    rw [if_neg hs] at he
    dsimp only at he
    split at he
    · cases he
      rfl
    · split at he
      · cases he
        rfl
      · cases he

theorem row_of_indexHeader (h : indexHeader toLowerCase header schema source columnMap = .error e) : e.row = none := by
  cases columnMap
  case none => cases h
  case some columnMap =>
    cases hv : validateColumnMap toLowerCase columnMap header schema source
    case ok => simp [indexHeader, hv] at h
    case error e' =>
      obtain rfl : e' = e := by simpa [indexHeader, hv] using h
      exact row_of_validateColumnMap hv

end

-- The required columns are there exactly if none of them is reported as missing.
theorem requireCols_cases (cols : Columns) (names : List String) (source : Source) :
    (requireCols cols names source = .ok () ∧ names.filter (fun n => (cols.index n).isNone) = []) ∨
    ((∃ message, requireCols cols names source = .error (source.fail message)) ∧
      names.filter (fun n => (cols.index n).isNone) ≠ []) := by
  induction names
  case nil => exact .inl ⟨rfl, rfl⟩
  case cons n names ih =>
    simp only [requireCols, List.forM_eq_forM, List.forM_cons] at ih ⊢
    by_cases hn : (cols.index n).isNone
    case pos =>
      refine .inr ⟨⟨js "missing required column " ++ quoted (js n) ++ js " in header", ?_⟩, ?_⟩
      · rw [if_pos hn]
        rfl
      · simp [hn]
    case neg =>
      have hf : (n :: names).filter (fun n => (cols.index n).isNone) = names.filter fun n => (cols.index n).isNone :=
        List.filter_cons_of_neg hn
      rw [if_neg hn, hf]
      exact ih

section

variable {toLowerCase : JsString → JsString}

theorem agrees_csv {cfg : Config} (hb : ∀ arr cols hasSigned loc, FailsAt loc (cfg.build arr cols hasSigned loc)) :
    Agrees (diagnoseCSV toLowerCase cfg sampleSize columnMap text) (parseRows toLowerCase cfg columnMap text) := by
  rw [diagnoseCSV, parseRows]
  cases hr : (parseCSV text).head?
  case none =>
    simp only [throw_eq]
    exact .fail rfl <| by simp [Report.isClean, Report.fail]
  case some header =>
    dsimp only
    cases hi : indexHeader toLowerCase header cfg.schema cfg.source columnMap
    case error e =>
      exact .fail (row_of_indexHeader hi) <| by simp [Report.isClean, Report.fail]
    case ok cols =>
      rw [ok_bind]
      dsimp only
      have hr := requireCols_cases cols cfg.required cfg.source
      by_cases hp : (cols.index "amount").isSome ∨ (cols.index cfg.split.1).isSome ∨ (cols.index cfg.split.2).isSome
      case pos =>
        have hn : ¬ (¬ (cols.index "amount").isSome ∧
            ¬ ((cols.index cfg.split.1).isSome ∨ (cols.index cfg.split.2).isSome)) := by tauto
        have hg : ¬ ¬ (decide ((cols.index "amount").isSome ∨ (cols.index cfg.split.1).isSome ∨
            (cols.index cfg.split.2).isSome)) = true := not_not.mpr <| decide_eq_true hp
        rw [if_neg hg]
        cases hr
        case inl h =>
          obtain ⟨hc, hm⟩ := h
          rw [hc, ok_bind, if_neg (not_not.mpr hm), if_neg hn]
          refine .addAll (fun row _ e he => ?_) rfl hm rfl rfl rfl
          exact hb _ _ _ _ e he
        case inr h =>
          obtain ⟨⟨message, hc⟩, hm⟩ := h
          rw [hc, error_bind, if_pos hm]
          exact .fail rfl fun h => hm h.right
      case neg =>
        have hg : ¬ (decide ((cols.index "amount").isSome ∨ (cols.index cfg.split.1).isSome ∨
            (cols.index cfg.split.2).isSome)) = true := fun h => hp <| of_decide_eq_true h
        have hn : ¬ (cols.index "amount").isSome ∧
            ¬ ((cols.index cfg.split.1).isSome ∨ (cols.index cfg.split.2).isSome) := by tauto
        rw [if_pos hg]
        cases hr
        case inl h =>
          rw [h.left, ok_bind, if_pos hn]
          exact .fail rfl <| by simp [Report.isClean, Report.fail]
        case inr h =>
          obtain ⟨⟨message, hc⟩, -⟩ := h
          rw [hc, error_bind]
          exact .fail rfl <| by simp [Report.isClean, Report.fail]

-- The OFX diagnosis agrees with the strict parser if there is a transaction, or no OFX document.
theorem agrees_ofx (hb : ofxBlocks text ≠ .ok []) :
    Agrees (diagnoseOFX toLowerCase sampleSize text) (parseOFX toLowerCase text) := by
  rw [diagnoseOFX, parseOFX]
  cases ho : ofxBlocks text
  case error e =>
    refine .fail ?_ <| by simp [Report.isClean, Report.fail]
    rw [ofxBlocks] at ho
    split_ifs at ho
    cases ho
    rfl
  case ok blocks =>
    have hn : blocks ≠ [] := by
      rintro rfl
      exact hb ho
    rw [ok_bind]
    dsimp only
    rw [if_neg hn]
    exact .addAll (fun _ _ e he => failsAt_buildOFXRecord e he) rfl rfl rfl rfl rfl

-- Without any transaction in the OFX document, the strict parser has no records while the diagnosis has an error.
theorem not_agrees_ofx (hb : ofxBlocks text = .ok []) :
    ¬ Agrees (diagnoseOFX toLowerCase sampleSize text) (parseOFX toLowerCase text) := by
  intro h
  have hp : parseOFX toLowerCase text = .ok [] := by
    rw [parseOFX, hb]
    rfl
  have hc : (diagnoseOFX toLowerCase sampleSize text).isClean := h.isClean_iff.mpr ⟨[], hp⟩
  have he := hc.left
  rw [diagnoseOFX, hb] at he
  simp [Report.fail] at he

-- The diagnosis agrees with the strict parser, except on an OFX text without any transaction.
theorem diagnoseSource_agrees_iff (toLowerCase : JsString → JsString) (source : Source) (sampleSize : ℕ)
    (format : Option Format) (columnMap : Option ColumnMap) (text : Option JsString) :
    Agrees (diagnoseSource toLowerCase source sampleSize format columnMap text)
      (parseSource toLowerCase source format columnMap text) ↔
    ¬ (source = .bank ∧ ∃ t, text = some t ∧ formatOf format t = .ofx ∧ ofxBlocks t = .ok []) := by
  cases text
  case none =>
    refine iff_of_true ?_ fun ⟨_, _, h, _⟩ => by cases h
    cases source <;> exact .fail rfl <| by simp [diagnoseSource, Report.isClean, Report.fail]
  case some t =>
    rw [diagnoseSource]
    cases source
    case quickbooks =>
      exact iff_of_true (agrees_csv fun _ _ _ _ => failsAt_buildQuickBooksRecord) fun ⟨h, _⟩ => by cases h
    case rentRoll =>
      exact iff_of_true (agrees_csv fun _ _ _ _ => failsAt_buildRentRollRecord) fun ⟨h, _⟩ => by cases h
    case bank =>
      rw [parseSource, parseBankStatement]
      cases hf : formatOf format t
      case csv =>
        refine iff_of_true (agrees_csv fun _ _ _ _ => failsAt_buildBankRecord) ?_
        rintro ⟨_, _, ⟨rfl⟩, h, _⟩
        rw [hf] at h
        cases h
      case ofx =>
        simp only [hf, and_self, if_true, true_and, Option.some.injEq, exists_eq_left']
        by_cases hb : ofxBlocks t = .ok []
        case pos => exact iff_of_false (not_agrees_ofx hb) <| not_not.mpr hb
        case neg => exact iff_of_true (agrees_ofx hb) hb

-- An OFX document without any transaction.
def emptyDocument : JsString :=
  js "<OFX></OFX>"

theorem diagnoseSource_disagrees :
    ¬ Agrees (diagnoseSource Hex.toLowerCase .bank 5 none none <| some emptyDocument)
      (parseSource Hex.toLowerCase .bank none none <| some emptyDocument) := by
  have hf : formatOf none emptyDocument = .ofx := by decide
  have hb : ofxBlocks emptyDocument = .ok [] := by decide
  rw [diagnoseSource, parseSource, parseBankStatement]
  simp only [hf, and_self, if_true]
  exact not_agrees_ofx hb

end

end Ingest
