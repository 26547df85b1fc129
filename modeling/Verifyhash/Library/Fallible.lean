import Mathlib

-- When a computation which can throw returns a value.
namespace Fallible

theorem bind_eq_ok {x : Except ε α} {f : α → Except ε β} :
    (x >>= f) = .ok b ↔ ∃ a, x = .ok a ∧ f a = .ok b := by
  cases x <;> simp [bind, Except.bind]

theorem pure_eq_ok {a b : α} : (pure a : Except ε α) = .ok b ↔ a = b := by
  simp [pure, Except.pure]

@[simp]
theorem ok_bind {f : α → Except ε β} : (Except.ok a >>= f) = f a :=
  rfl

@[simp]
theorem pure_eq : (pure a : Except ε α) = .ok a :=
  rfl

@[simp]
theorem error_bind {f : α → Except ε β} {e : ε} : (Except.error e >>= f) = .error e :=
  rfl

@[simp]
theorem throw_eq {e : ε} : (throw e : Except ε α) = .error e :=
  rfl

-- A test which throws, and what follows it.
theorem check_eq_ok [Decidable p] {e : ε} {f : γ → Except ε α} {y : Except ε α} :
    (if p then (MonadExcept.throw e >>= f) else y) = .ok a ↔ ¬ p ∧ y = .ok a := by
  split_ifs with h
  · simp [h]
  · simp [h]

theorem toOption_eq_some {x : Except ε α} : x.toOption = some a ↔ x = .ok a := by
  cases x <;> simp [Except.toOption]

theorem mapM_congr [Monad m] [LawfulMonad m] {f g : α → m β} {l : List α} (h : ∀ a ∈ l, f a = g a) :
    l.mapM f = l.mapM g := by
  induction l
  case nil => rfl
  case cons a l ih =>
    have ⟨ha, h⟩ := List.forall_mem_cons.mp h
    rw [List.mapM_cons, List.mapM_cons, ha, ih h]

variable {f : α → Except ε β} {l : List α}

theorem mapM_eq_ok {g : α → β} (h : ∀ a ∈ l, f a = .ok (g a)) : l.mapM f = .ok (l.map g) := by
  induction l
  case nil => rfl
  case cons a l ih =>
    have ⟨h₁, h₂⟩ := List.forall_mem_cons.mp h
    rw [List.mapM_cons, h₁, ih h₂]
    rfl

theorem mapM_map_eq_ok {h : γ → α} {g : γ → β} {l : List γ} (hf : ∀ c ∈ l, f (h c) = .ok (g c)) :
    (l.map h).mapM f = .ok (l.map g) := by
  rw [List.mapM_map]
  exact mapM_eq_ok hf

-- Two loops whose steps agree up to a projection of their values agree up to it.
theorem map_mapM_congr {g : α → Except ε β} {p : β → γ} (h : ∀ a ∈ l, (f a).map p = (g a).map p) :
    (l.mapM f).map (List.map p) = (l.mapM g).map (List.map p) := by
  induction l
  case nil => rfl
  case cons a l ih =>
    have ⟨ha, h⟩ := List.forall_mem_cons.mp h
    have hl := ih h
    rw [List.mapM_cons, List.mapM_cons]
    cases hf : f a <;> cases hg : g a <;> simp only [hf, hg, Except.map, reduceCtorEq, Except.error.injEq,
      Except.ok.injEq] at ha
    case error.error => simp [ha, Except.map]
    case ok.ok =>
      simp only [ok_bind]
      cases hm : l.mapM f <;> cases hn : l.mapM g <;> simp only [hm, hn, Except.map, reduceCtorEq,
        Except.error.injEq, Except.ok.injEq] at hl
      case error.error => simp [hl, Except.map]
      case ok.ok       => simp [ha, hl, Except.map]

theorem exists_of_mapM_eq_ok (h : l.mapM f = .ok l') : ∀ a ∈ l, ∃ b, f a = .ok b := by
  induction l generalizing l'
  case nil => simp
  case cons a l ih =>
    simp only [List.mapM_cons, bind_eq_ok, pure_eq_ok] at h
    have ⟨b, hb, _, hl, _⟩ := h
    exact List.forall_mem_cons.mpr ⟨⟨b, hb⟩, ih hl⟩

-- A loop returns a value if every step does, and then the value is made of the values of the steps.
theorem mapM_eq_ok_iff : l.mapM f = .ok bs ↔
    (∀ a ∈ l, (f a).toOption.isSome) ∧ bs = l.filterMap fun a => (f a).toOption := by
  induction l generalizing bs
  case nil =>
    rw [List.mapM_nil, pure_eq_ok]
    exact ⟨fun h => ⟨by simp, h.symm⟩, fun h => h.right.symm⟩
  case cons a l ih =>
    rw [List.mapM_cons]
    cases ha : f a
    case error => simp [Except.toOption, ha]
    case ok b  =>
      simp only [ok_bind, bind_eq_ok, ih, List.forall_mem_cons, ha, Except.toOption, Option.isSome_some, true_and,
        List.filterMap_cons]
      constructor
      · rintro ⟨_, ⟨h, rfl⟩, ⟨rfl⟩⟩
        exact ⟨h, rfl⟩
      · rintro ⟨h, rfl⟩
        exact ⟨_, ⟨h, rfl⟩, rfl⟩

theorem mapM_eq_error (h : l.mapM f = .error e) : ∃ a ∈ l, f a = .error e := by
  induction l
  case nil => simp at h
  case cons a l ih =>
    rw [List.mapM_cons] at h
    cases ha : f a
    case error e' =>
      rw [ha, error_bind, Except.error.injEq] at h
      exact ⟨a, by simp, h ▸ ha⟩
    case ok b =>
      rw [ha, ok_bind] at h
      cases hl : l.mapM f
      case error e' =>
        rw [hl, error_bind, Except.error.injEq] at h
        obtain ⟨a', hm, ha'⟩ := ih (h ▸ hl)
        exact ⟨a', by simp [hm], ha'⟩
      case ok => simp [hl] at h

theorem length_mapM (h : l.mapM f = .ok l') : l'.length = l.length := by
  induction l generalizing l'
  case nil =>
    obtain ⟨rfl⟩ := h
    rfl
  case cons a l ih =>
    simp only [List.mapM_cons, bind_eq_ok, pure_eq_ok] at h
    obtain ⟨_, _, _, hl, rfl⟩ := h
    simp [ih hl]

-- Of a loop with a state, which succeeds: every step succeeds, and if the result of a step does not
-- depend on the state, then neither do the results of the loop.
theorem of_run_mapM_eq_some {f : α → StateT σ Option β} {s : σ} (h : (l.mapM f).run s = some (bs, s')) :
    (∀ a ∈ l, ∃ s b s', (f a).run s = some (b, s')) ∧
      ∀ g : α → β, (∀ a ∈ l, ∀ s b s', (f a).run s = some (b, s') → b = g a) → bs = l.map g := by
  induction l generalizing s bs
  case nil =>
    obtain ⟨rfl, _⟩ : [] = bs ∧ s = s' := by simpa using h
    simp
  case cons a l ih =>
    simp only [List.mapM_cons, StateT.run_bind, Option.bind_eq_bind, Option.bind_eq_some_iff] at h
    obtain ⟨⟨b, t⟩, ha, ⟨bs', u⟩, hl, hp⟩ := h
    obtain ⟨rfl, rfl⟩ : b :: bs' = bs ∧ u = s' := by simpa using hp
    have ⟨hm, hg⟩ := ih hl
    refine ⟨List.forall_mem_cons.mpr ⟨⟨s, b, t, ha⟩, hm⟩, fun g h => ?_⟩
    have ⟨h₁, h₂⟩ := List.forall_mem_cons.mp h
    rw [h₁ s b t ha, hg g h₂, List.map_cons]

end Fallible
