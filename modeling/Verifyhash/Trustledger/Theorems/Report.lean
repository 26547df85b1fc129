import Verifyhash.Trustledger.Report

namespace Report

open Ingest CsvState

-- What a field is written as, if it has no carriage returns: as it is, or in quotes.
inductive Written (v : JsString) : JsString → Prop
  | plain  : (∀ u ∈ v, ¬ isSpecial u) → Written v v
  | quoted : Written v (js "\"" ++ doubled v ++ js "\"")

section

variable {v w f g : JsString} {c : UInt16} {s : JsString} {rows : List (List JsString)} {row : List JsString}

-- The reader takes a plain field up to its end.
theorem scan_plain (h : ∀ u ∈ v, ¬ isSpecial u) :
    scan ⟨rows, row, f, false⟩ (v ++ s) = scan ⟨rows, row, f ++ v, false⟩ s := by
  induction v generalizing f
  case nil => rw [List.nil_append, List.append_nil]
  case cons u v ih =>
    have ⟨hu, hv⟩ := List.forall_mem_cons.mp h
    simp only [isSpecial, decide_eq_true_eq, not_or] at hu
    obtain ⟨hq, hc, -, hn⟩ := hu
    have hs : scan ⟨rows, row, f, false⟩ (u :: (v ++ s)) = scan (step ⟨rows, row, f, false⟩ u) (v ++ s) := by
      rw [scan]
      rintro _ rfl
      exact absurd rfl hq
    rw [List.cons_append, hs, step]
    simp only [Bool.false_eq_true, if_false, hq, hc, hn]
    rw [ih hv, List.append_assoc]
    rfl

-- Inside of quotes, the reader takes a doubled quote as one.
theorem scan_doubled (hs : s.head? ≠ some 34) :
    scan ⟨rows, row, f, true⟩ (doubled v ++ 34 :: s) = scan ⟨rows, row, f ++ v, false⟩ s := by
  induction v generalizing f
  case nil =>
    have hc : scan ⟨rows, row, f, true⟩ (34 :: s) = scan (step ⟨rows, row, f, true⟩ 34) s := by
      rw [scan]
      rintro _ - rfl
      exact hs rfl
    rw [List.append_nil]
    exact hc
  case cons u v ih =>
    rw [doubled, List.flatMap_cons, ← doubled]
    by_cases hu : u = 34
    case pos =>
      subst hu
      rw [if_pos rfl, List.append_assoc, List.cons_append, List.singleton_append, scan, if_pos rfl, ih,
        List.append_assoc]
      rfl
    case neg =>
      have hc : scan ⟨rows, row, f, true⟩ (u :: (doubled v ++ 34 :: s)) =
          scan (step ⟨rows, row, f, true⟩ u) (doubled v ++ 34 :: s) := by
        rw [scan]
        rintro _ rfl
        exact absurd rfl hu
      rw [if_neg hu, List.append_assoc, List.singleton_append, hc, step]
      simp only [if_true, hu, if_false]
      rw [ih, List.append_assoc]
      rfl

theorem scan_opening (s : JsString) : scan ⟨rows, row, f, false⟩ (34 :: s) = scan ⟨rows, row, f, true⟩ s := by
  by_cases h : s.head? = some 34
  case pos =>
    obtain ⟨s', rfl⟩ := List.head?_eq_some_iff.mp h
    rw [scan, if_neg (by simp)]
    rfl
  case neg =>
    have hc : scan ⟨rows, row, f, false⟩ (34 :: s) = scan (step ⟨rows, row, f, false⟩ 34) s := by
      rw [scan]
      rintro _ - rfl
      exact h rfl
    exact hc

theorem scan_written (h : Written v w) (hc : c ≠ 34) :
    scan ⟨rows, row, [], false⟩ (w ++ c :: s) = scan ⟨rows, row, v, false⟩ (c :: s) := by
  cases h
  case plain h => rw [scan_plain h, List.nil_append]
  case quoted =>
    have hq : js "\"" = [34] := rfl
    rw [hq, List.append_assoc, List.append_assoc, List.singleton_append, List.singleton_append, scan_opening,
      scan_doubled, List.nil_append]
    simpa using hc

-- The reader takes a line as its row, unless the line has a single field.
theorem scan_line {fields : List JsString} {texts : List JsString} (h : List.Forall₂ Written fields texts)
    (hl : 2 ≤ row.length + fields.length) (hn : fields ≠ []) :
    scan ⟨rows, row, [], false⟩ ((js ",").intercalate texts ++ 10 :: s) =
      scan ⟨rows ++ [row ++ fields], [], [], false⟩ s := by
  induction h generalizing row
  case nil => exact absurd rfl hn
  case cons v w fields texts hv h ih =>
    cases h
    case nil =>
      have hb : isBlank (row ++ [v]) = false := by
        obtain _ | ⟨_, _⟩ := row
        · simp at hl
        · rw [List.cons_append]
          simp [isBlank]
      have hs : scan ⟨rows, row, v, false⟩ (10 :: s) = scan (step ⟨rows, row, v, false⟩ 10) s := by
        rw [scan]
        rintro _ ⟨⟩
      rw [List.intercalate_singleton, scan_written hv (by decide), hs]
      simp [step, pushRow, pushField, hb]
    case cons v' w' fields texts hv' h =>
      have hs (t) : scan ⟨rows, row, v, false⟩ (44 :: t) = scan (step ⟨rows, row, v, false⟩ 44) t := by
        rw [scan]
        rintro _ ⟨⟩
      have hj : (js ",").intercalate (w :: w' :: texts) = w ++ 44 :: (js ",").intercalate (w' :: texts) := by
        simp [List.intercalate, js]
      rw [hj, List.append_assoc, List.cons_append, scan_written hv (by decide), hs]
      have hp : step ⟨rows, row, v, false⟩ 44 = ⟨rows, row ++ [v], [], false⟩ := rfl
      rw [hp, ih (by simp; omega) (by simp), List.append_assoc]
      rfl

theorem scan_lines {table : List (List JsString)} {lines : List JsString} (h : List.Forall₂ (fun fields line =>
    2 ≤ fields.length ∧ ∃ texts, List.Forall₂ Written fields texts ∧ line = (js ",").intercalate texts) table lines) :
    scan ⟨rows, [], [], false⟩ (lines.flatMap fun line => line ++ [10]) = ⟨rows ++ table, [], [], false⟩ := by
  induction h generalizing rows
  case nil =>
    rw [List.append_nil]
    rfl
  case cons fields line table lines hf h ih =>
    obtain ⟨hl, texts, ht, rfl⟩ := hf
    have hn : fields ≠ [] := by
      rintro rfl
      simp at hl
    rw [List.flatMap_cons, List.append_assoc, List.singleton_append, scan_line ht (by simpa using hl) hn, ih,
      List.append_assoc]
    rfl

theorem normalizeNewlines_cr (h : s.head? ≠ some 10) : normalizeNewlines (13 :: s) = 10 :: normalizeNewlines s := by
  rw [normalizeNewlines]
  rintro _ rfl
  exact h rfl

theorem normalizeNewlines_cons (h : c ≠ 13) : normalizeNewlines (c :: s) = c :: normalizeNewlines s := by
  rw [normalizeNewlines]
  · rintro _ rfl
    exact absurd rfl h
  · exact h

-- Normalizing goes on behind a text, unless that cuts a line break.
theorem normalizeNewlines_append (h : v.getLast? = some 13 → s.head? ≠ some 10) :
    normalizeNewlines (v ++ s) = normalizeNewlines v ++ normalizeNewlines s := by
  induction v using normalizeNewlines.induct
  case case1 => rfl
  case case2 v ih =>
    rw [List.cons_append, List.cons_append, normalizeNewlines, normalizeNewlines, ih, List.cons_append]
    intro hv
    apply h
    cases v
    case nil => cases hv
    case cons => exact hv
  case case3 v hv ih =>
    have hh : v.head? ≠ some 10 := by
      intro hh
      obtain ⟨t, rfl⟩ := List.head?_eq_some_iff.mp hh
      exact hv t rfl
    rw [List.cons_append, normalizeNewlines_cr hh]
    cases v
    case nil => exact normalizeNewlines_cr <| h rfl
    case cons => rw [normalizeNewlines_cr (by exact hh), ih h, List.cons_append]
  case case4 c v _ hc ih =>
    rw [List.cons_append, normalizeNewlines_cons hc, normalizeNewlines_cons hc, ih, List.cons_append]
    intro hv
    apply h
    cases v
    case nil => cases hv
    case cons => exact hv

theorem normalizeNewlines_of_not_mem (h : 13 ∉ v) : normalizeNewlines v = v := by
  induction v
  case nil => rfl
  case cons u v ih =>
    have ⟨hu, hv⟩ := not_or.mp <| mt List.mem_cons.mpr h
    rw [normalizeNewlines_cons (Ne.symm hu), ih hv]

theorem normalizeNewlines_doubled (v : JsString) : normalizeNewlines (doubled v) = doubled (normalizeNewlines v) := by
  induction v using normalizeNewlines.induct
  case case1 => rfl
  case case2 v ih =>
    have hd : doubled (13 :: 10 :: v) = 13 :: 10 :: doubled v := rfl
    have hd' : doubled (10 :: normalizeNewlines v) = 10 :: doubled (normalizeNewlines v) := rfl
    rw [hd, normalizeNewlines, ih, normalizeNewlines, hd']
  case case3 v hv ih =>
    have hh : v.head? ≠ some 10 := by
      intro hh
      obtain ⟨t, rfl⟩ := List.head?_eq_some_iff.mp hh
      exact hv t rfl
    have hd : doubled (13 :: v) = 13 :: doubled v := rfl
    have hd' : doubled (10 :: normalizeNewlines v) = 10 :: doubled (normalizeNewlines v) := rfl
    have hdh : (doubled v).head? ≠ some 10 := by
      cases v
      case nil => simp [doubled]
      case cons u v =>
        have hu : u ≠ 10 := by simpa using hh
        rw [doubled, List.flatMap_cons]
        split_ifs
        · simp
        · simpa using hu
    rw [hd, normalizeNewlines_cr hdh, ih, normalizeNewlines_cr hh, hd']
  case case4 c v _ hc ih =>
    rw [normalizeNewlines_cons hc]
    have hd (t) : doubled (c :: t) = (if c = 34 then [34, 34] else [c]) ++ doubled t := List.flatMap_cons
    rw [hd, hd]
    split_ifs with hq
    · rw [List.cons_append, List.singleton_append, normalizeNewlines_cons (by decide),
        normalizeNewlines_cons (by decide), ih]
      rfl
    · rw [List.singleton_append, normalizeNewlines_cons hc, ih]
      rfl

theorem written_csvField (v : JsString) : Written (normalizeNewlines v) (normalizeNewlines <| csvField v) := by
  rw [csvField]
  split_ifs with h
  case pos =>
    have hq (t) : normalizeNewlines (js "\"" ++ t) = js "\"" ++ normalizeNewlines t :=
      normalizeNewlines_cons (by decide)
    have hr : normalizeNewlines (js "\"") = js "\"" := rfl
    rw [List.append_assoc, hq, normalizeNewlines_append (by simp [js]), normalizeNewlines_doubled, hr,
      ←List.append_assoc]
    exact .quoted
  case neg =>
    have hs : ∀ u ∈ v, ¬ isSpecial u := by simpa using h
    have hm : 13 ∉ v := fun hm => hs 13 hm (by decide)
    rw [normalizeNewlines_of_not_mem hm]
    exact .plain hs

theorem getLast?_csvField (v : JsString) : (csvField v).getLast? ≠ some 13 := by
  rw [csvField]
  split_ifs with h
  case pos =>
    have hl : (js "\"" ++ doubled v ++ js "\"").getLast? = some 34 := List.getLast?_concat ..
    rw [hl]
    decide
  case neg =>
    intro hl
    have hs : ∀ u ∈ v, ¬ isSpecial u := by simpa using h
    exact hs 13 (List.mem_of_getLast? hl) (by decide)

-- A line, normalized, before the rest of the text
theorem normalizeNewlines_line {fields : List JsString} (hn : fields ≠ []) :
    ∃ texts, List.Forall₂ Written (fields.map normalizeNewlines) texts ∧
      normalizeNewlines ((js ",").intercalate (fields.map csvField) ++ 10 :: s) =
        (js ",").intercalate texts ++ 10 :: normalizeNewlines s := by
  induction fields
  case nil => exact absurd rfl hn
  case cons v fields ih =>
    have hv (c t) (hc : c ≠ 13) : normalizeNewlines (csvField v ++ c :: t) =
        normalizeNewlines (csvField v) ++ c :: normalizeNewlines t := by
      rw [normalizeNewlines_append fun hl => absurd hl <| getLast?_csvField v, normalizeNewlines_cons hc]
    cases fields
    case nil =>
      refine ⟨[normalizeNewlines <| csvField v], .cons (written_csvField v) .nil, ?_⟩
      rw [List.map_singleton, List.intercalate_singleton, List.intercalate_singleton, hv 10 s (by decide)]
    case cons v' fields =>
      obtain ⟨texts, ht, he⟩ := ih (by simp)
      have hj (w : JsString) (ws : List JsString) (h : ws ≠ []) :
          (js ",").intercalate (w :: ws) = w ++ 44 :: (js ",").intercalate ws := by
        obtain ⟨w', ws, rfl⟩ := List.exists_cons_of_ne_nil h
        simp [List.intercalate, js]
      have htn : texts ≠ [] := by
        rintro rfl
        cases ht
      refine ⟨(normalizeNewlines <| csvField v) :: texts, .cons (written_csvField v) ht, ?_⟩
      rw [List.map_cons, hj _ _ (by simp), hj _ _ htn, List.append_assoc, List.cons_append, hv 44 _ (by decide), he,
        List.append_assoc]
      rfl

theorem normalizeNewlines_lines {table : List (List JsString)} (h : ∀ fields ∈ table, 2 ≤ fields.length) :
    ∃ lines, List.Forall₂ (fun fields line => 2 ≤ fields.length ∧
        ∃ texts, List.Forall₂ Written fields texts ∧ line = (js ",").intercalate texts)
        (table.map (List.map normalizeNewlines)) lines ∧
      normalizeNewlines (table.flatMap fun fields => (js ",").intercalate (fields.map csvField) ++ [10]) =
        lines.flatMap fun line => line ++ [10] := by
  induction table
  case nil => exact ⟨[], .nil, rfl⟩
  case cons fields table ih =>
    have ⟨hf, h⟩ := List.forall_mem_cons.mp h
    obtain ⟨lines, hl, he⟩ := ih h
    have hn : fields ≠ [] := by
      rintro rfl
      simp at hf
    rw [List.flatMap_cons, List.append_assoc, List.singleton_append]
    obtain ⟨texts, ht, hx⟩ := @normalizeNewlines_line
      (table.flatMap fun fields => (js ",").intercalate (fields.map csvField) ++ [10]) fields hn
    refine ⟨(js ",").intercalate texts :: lines, .cons ⟨by simpa using hf, texts, ht, rfl⟩ hl, ?_⟩
    rw [hx, he, List.flatMap_cons, List.append_assoc]
    rfl

theorem renderRows_eq (hn : rows ≠ []) :
    renderRows rows = rows.flatMap fun fields => (js ",").intercalate (fields.map csvField) ++ [10] := by
  rw [renderRows]
  induction rows
  case nil => exact absurd rfl hn
  case cons fields rows ih =>
    cases rows
    case nil => simp [js, List.intercalate]
    case cons fields' rows =>
      rw [List.flatMap_cons, ← ih (by simp)]
      simp [js, List.intercalate]

-- What the reader makes of a table with at least two columns.
theorem parseCSV_renderRows (hn : rows ≠ []) (h : ∀ fields ∈ rows, 2 ≤ fields.length) :
    parseCSV (renderRows rows) = rows.map (List.map normalizeNewlines) := by
  obtain ⟨lines, hl, he⟩ := normalizeNewlines_lines h
  have hs : scan ⟨[], [], [], false⟩ (normalizeNewlines <| renderRows rows) =
      ⟨rows.map (List.map normalizeNewlines), [], [], false⟩ := by
    rw [renderRows_eq hn, he]
    exact scan_lines hl
  simp [parseCSV, hs, hn]

end

theorem length_exceptionsTable (model : Model) : ∀ fields ∈ exceptionsTable model, 2 ≤ fields.length := by
  simp only [exceptionsTable, List.forall_mem_cons, List.mem_flatMap]
  refine ⟨by decide, ?_⟩
  rintro fields ⟨e, _, hf⟩
  rw [exceptionRows] at hf
  split_ifs at hf
  · obtain rfl := List.mem_singleton.mp hf
    simp [exceptionRow]
  · obtain ⟨r, _, rfl⟩ := List.mem_map.mp hf
    simp [exceptionRow]

theorem length_balancesTable (model : Model) : ∀ fields ∈ balancesTable model, 2 ≤ fields.length := by
  simp only [balancesTable, List.forall_mem_append, List.forall_mem_cons, List.forall_mem_map, List.mem_flatMap]
  refine ⟨⟨⟨?_, ?_⟩, ?_⟩, ?_⟩
  · simp [centsRow]
  · simp
  · rintro fields ⟨c, _, hf⟩
    simp only [continuityRows, centsRow, List.mem_cons, List.not_mem_nil, or_false] at hf
    rcases hf with rfl | rfl | rfl | rfl | rfl | rfl | rfl | rfl <;> simp
  · simp

-- The spreadsheets are read back as they were written, up to the line breaks inside of fields.
theorem parseCSV_renderCSV (model : Model) :
    parseCSV (renderExceptionsCSV model) = (exceptionsTable model).map (List.map normalizeNewlines) ∧
      parseCSV (renderBalancesCSV model) = (balancesTable model).map (List.map normalizeNewlines) :=
  ⟨parseCSV_renderRows (List.cons_ne_nil _ _) <| length_exceptionsTable model,
    parseCSV_renderRows (by simp [balancesTable]) <| length_balancesTable model⟩

end Report
