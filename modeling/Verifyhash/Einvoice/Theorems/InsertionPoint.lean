import Verifyhash.Einvoice.InsertionPoint

namespace InsertionPoint

-- The element which is reached by segments, each of which names one child only.
inductive Resolves : Element → List Str → Element → Prop
  | nil : Resolves el [] el
  | step {segment : Str} : (node.children.filter (isNamed segment) = [child]) → (Resolves child segments el) →
    Resolves node (segment :: segments) el

-- No child has the name of the segment.
def Absent (segment : Str) (node : Element) : Prop :=
  ∀ child ∈ node.children, isNamed segment child = false

-- More than one child has the name of the segment.
def Ambiguous (segment : Str) (node : Element) : Prop :=
  1 < (node.children.filter (isNamed segment)).length

-- The deepest element which the path has in the document is below the root, the path goes on, and this is its line.
structure AnchoredAt (env : Env) (root : Element) (path : Str) (line : ℤ) (pre : List Str) (segment : Str)
    (rest : List Str) (el : Element) : Prop where
  segments : segmentsBelow env root path = some (pre ++ segment :: rest)
  below    : pre ≠ []
  resolves : Resolves root pre el
  absent   : Absent segment el
  stamped  : env.sourceline el.id = some line
  pos      : 1 ≤ line

section

variable {env : Env} {root node el : Element} {segment path : Str} {segments pre rest : List Str} {depth n : ℕ}
         {line : ℤ} {v : Violation}

theorem absent_iff : Absent segment node ↔ node.children.filter (isNamed segment) = [] := by
  simp [Absent, List.filter_eq_nil_iff]

theorem walk_append (h : Resolves node pre el) (rest : List Str) :
    walk node depth (pre ++ rest) = walk el (depth + pre.length) rest := by
  induction h generalizing depth
  case nil => rfl
  case step hf _ ih =>
    rw [List.cons_append, walk]
    simp only [hf]
    rw [ih, List.length_cons, add_right_comm, add_assoc]

theorem walk_absent (h : Absent segment node) : walk node depth (segment :: rest) = some (node, depth) := by
  rw [walk]
  simp only [absent_iff.mp h]

theorem walk_ambiguous (h : Ambiguous segment node) : walk node depth (segment :: rest) = none := by
  rw [walk]
  split
  case h_1 hf => simp [Ambiguous, hf] at h
  case h_2 hf => simp [Ambiguous, hf] at h
  case h_3 => rfl

-- The walk stops at the end of a prefix which resolves, before a segment which is absent.
theorem walk_eq_some : walk node depth segments = some (el, n) ↔ ∃ pre segment rest,
    segments = pre ++ segment :: rest ∧ Resolves node pre el ∧ Absent segment el ∧ n = depth + pre.length := by
  constructor
  case mp =>
    intro h
    induction segments generalizing node depth
    case nil => cases h
    case cons segment segments ih =>
      rw [walk] at h
      split at h
      case h_1 hf =>
        obtain ⟨rfl, rfl⟩ := Prod.mk.inj <| Option.some.inj h
        exact ⟨[], segment, segments, rfl, .nil, absent_iff.mpr hf, rfl⟩
      case h_2 child hf =>
        obtain ⟨pre, s, rest, rfl, hr, ha, rfl⟩ := ih h
        exact ⟨segment :: pre, s, rest, rfl, .step hf hr, ha, by rw [List.length_cons]; omega⟩
      case h_3 => cases h
  case mpr =>
    rintro ⟨pre, segment, rest, rfl, hr, ha, rfl⟩
    rw [walk_append hr, walk_absent ha]

theorem insertionPointLine_eq_some : insertionPointLine env root (some path) = some line ↔
    ∃ pre segment rest el, AnchoredAt env root path line pre segment rest el := by
  rw [insertionPointLine]
  constructor
  case mp =>
    intro h
    simp only [Option.bind_eq_bind, Option.bind_some, Option.bind_eq_some_iff] at h
    obtain ⟨segments, hs, ⟨el, depth⟩, hw, h⟩ := h
    obtain ⟨pre, segment, rest, rfl, hr, ha, rfl⟩ := walk_eq_some.mp hw
    have ⟨hb, h⟩ : pre ≠ [] ∧
        ((env.sourceline el.id).bind fun line => if line < 1 then none else some line) = some line := by
      simpa using h
    obtain ⟨l, hl, h⟩ := Option.bind_eq_some_iff.mp h
    split_ifs at h with hp
    obtain rfl := Option.some.inj h
    exact ⟨pre, segment, rest, el, hs, hb, hr, ha, hl, not_lt.mp hp⟩
  case mpr =>
    rintro ⟨pre, segment, rest, el, a⟩
    have hd : 0 + pre.length ≠ 0 := by simpa using a.below
    have hl : ¬ line < 1 := not_lt.mpr a.pos
    simp [a.segments, walk_append a.resolves, walk_absent a.absent, a.stamped, a.below, hl]

theorem insertionPointLine_eq_none {p : Option Str}
    (h : ∀ path segments, p = some path → segmentsBelow env root path = some segments →
      (∃ pre segment rest el, segments = pre ++ segment :: rest ∧ Resolves root pre el ∧ Ambiguous segment el) ∨
      (∃ el, Resolves root segments el) ∨
      ∃ segment rest, segments = segment :: rest ∧ Absent segment root) :
    insertionPointLine env root p = none := by
  rw [insertionPointLine]
  cases p
  case none => rfl
  case some path =>
    cases hs : segmentsBelow env root path
    case none => simp [hs]
    case some segments =>
      rcases h path segments rfl hs with ⟨pre, segment, rest, el, rfl, hr, ha⟩ | ⟨el, hr⟩ | ⟨segment, rest, rfl, ha⟩
      · simp [hs, walk_append hr, walk_ambiguous ha]
      · have hw : walk root 0 segments = none := by
          rw [← List.append_nil segments, walk_append hr, walk]
        simp [hs, hw]
      · simp [hs, walk_absent ha]

-- What stamping makes of a finding
structure Annotated (env : Env) (root : Element) (v v' : Violation) : Prop where
  frame    : { v' with insertionPointLine := v.insertionPointLine } = v
  sourced  : v.sourceLine ≠ none → v' = v
  anchored : v' ≠ v → ∃ path line pre segment rest el, pathOf env v = some path ∧
    v'.insertionPointLine = some line ∧ AnchoredAt env root path line pre segment rest el
  silent   : (∀ path segments, pathOf env v = some path → segmentsBelow env root path = some segments →
      (∃ pre segment rest el, segments = pre ++ segment :: rest ∧ Resolves root pre el ∧ Ambiguous segment el) ∨
      (∃ el, Resolves root segments el) ∨
      ∃ segment rest, segments = segment :: rest ∧ Absent segment root) → v' = v

theorem annotated_stamp (env : Env) (root : Element) (v : Violation) : Annotated env root v (stamp env root v) := by
  rw [stamp]
  split_ifs with hs
  case pos => exact ⟨rfl, fun _ => rfl, fun h => absurd rfl h, fun _ => rfl⟩
  case neg =>
    cases hl : insertionPointLine env root (pathOf env v)
    case none => exact ⟨rfl, fun _ => rfl, fun h => absurd rfl h, fun _ => rfl⟩
    case some line =>
      refine ⟨rfl, fun h => absurd (Option.isSome_iff_ne_none.mpr h) hs, fun _ => ?_, fun h => ?_⟩
      · cases hp : pathOf env v
        case none =>
          rw [hp] at hl
          cases hl
        case some path =>
          rw [hp] at hl
          have ⟨pre, segment, rest, el, a⟩ := insertionPointLine_eq_some.mp hl
          exact ⟨path, line, pre, segment, rest, el, rfl, rfl, a⟩
      · rw [insertionPointLine_eq_none h] at hl
        cases hl

end

-- Stamping keeps the findings in their order and only annotates them.
theorem stampInsertionPoints_annotates (env : Env) (root : Element) (violations : List Violation) :
    List.Forall₂ (Annotated env root) violations (stampInsertionPoints env root violations) := by
  rw [stampInsertionPoints, List.forall₂_map_right_iff]
  exact List.forall₂_same.mpr fun v _ => annotated_stamp env root v

end InsertionPoint
