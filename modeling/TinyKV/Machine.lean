import Mathlib.Init

/-!
# State machines

A machine gives the state after an event, if the event can happen.
-/

namespace TinyKV

universe u v

/-- A machine: the state after an event, if the event can happen. -/
structure Machine (σ : Type u) (ε : Type v) where
  step : σ → ε → Option σ

namespace Machine

variable {σ : Type u} {ε : Type v} {M : Machine σ ε} {s s' : σ} {e : ε} {es fs : List ε}

def run (M : Machine σ ε) (s : σ) (es : List ε) : Option σ := es.foldlM M.step s

theorem run_cons : M.run s (e :: es) = some s' ↔
    ∃ s₁, M.step s e = some s₁ ∧ M.run s₁ es = some s' := by
  rw [run, List.foldlM_cons]
  exact Option.bind_eq_some_iff

theorem run_singleton : M.run s [e] = M.step s e := by
  rw [run, List.foldlM_cons]
  cases M.step s e <;> rfl

theorem run_append : M.run s (es ++ fs) = some s' ↔
    ∃ s₁, M.run s es = some s₁ ∧ M.run s₁ fs = some s' := by
  rw [run, List.foldlM_append]
  exact Option.bind_eq_some_iff

theorem run_invariant {I : σ → Prop} (hstep : ∀ s e s', I s → M.step s e = some s' → I s')
    (hs : I s) (hrun : M.run s es = some s') : I s' := by
  induction es generalizing s with
  | nil =>
    obtain rfl : s = s' := Option.some.inj hrun
    exact hs
  | cons e es ih =>
    obtain ⟨s₁, hs₁, hrun⟩ := run_cons.mp hrun
    exact ih (hstep s e s₁ hs hs₁) hrun

/-- Every step of the run has the property. -/
def Along (M : Machine σ ε) (P : σ → ε → σ → Prop) (s : σ) (es : List ε) : Prop :=
  ∀ es₁ e es₂ s₁ s₂, es = es₁ ++ e :: es₂ → M.run s es₁ = some s₁ → M.step s₁ e = some s₂ →
    P s₁ e s₂

variable {P Q : σ → ε → σ → Prop}

theorem along_nil : M.Along P s [] := by
  intro es₁ e es₂ s₁ s₂ heq
  simp at heq

theorem along_cons : M.Along P s (e :: es) ↔
    ∀ s', M.step s e = some s' → P s e s' ∧ M.Along P s' es := by
  constructor
  · intro h s' hs'
    refine ⟨h [] e es s s' rfl rfl hs', ?_⟩
    intro es₁ e' es₂ s₁ s₂ heq hrun hstep
    exact h (e :: es₁) e' es₂ s₁ s₂ (by rw [heq]; rfl) (run_cons.mpr ⟨s', hs', hrun⟩) hstep
  · intro h es₁ e' es₂ s₁ s₂ heq hrun hstep
    cases es₁ with
    | nil =>
      obtain ⟨rfl, rfl⟩ : e = e' ∧ es = es₂ := by simpa using heq
      obtain rfl : s = s₁ := Option.some.inj hrun
      exact (h s₂ hstep).1
    | cons d es₁ =>
      obtain ⟨rfl, rfl⟩ : e = d ∧ es = es₁ ++ e' :: es₂ := by simpa using heq
      obtain ⟨s', hs', hrun⟩ := run_cons.mp hrun
      exact (h s' hs').2 es₁ e' es₂ s₁ s₂ rfl hrun hstep

theorem along_congr (h : ∀ s e s', P s e s' ↔ Q s e s') : M.Along P s es ↔ M.Along Q s es := by
  constructor
  · intro hP es₁ e es₂ s₁ s₂ heq hrun hstep
    exact (h s₁ e s₂).mp (hP es₁ e es₂ s₁ s₂ heq hrun hstep)
  · intro hQ es₁ e es₂ s₁ s₂ heq hrun hstep
    exact (h s₁ e s₂).mpr (hQ es₁ e es₂ s₁ s₂ heq hrun hstep)

instance decidableAlong (M : Machine σ ε) (P : σ → ε → σ → Prop)
    [∀ s e s', Decidable (P s e s')] : (s : σ) → (es : List ε) → Decidable (M.Along P s es)
  | _, [] => isTrue along_nil
  | s, e :: es =>
    match h : M.step s e with
    | none => isTrue (by simp [along_cons, h])
    | some s' =>
      have := decidableAlong M P s' es
      decidable_of_iff (P s e s' ∧ M.Along P s' es) (by simp [along_cons, h])

theorem Along.right (h : M.Along P s (es ++ fs)) (hrun : M.run s es = some s') :
    M.Along P s' fs := by
  rintro es₁ e es₂ s₁ s₂ rfl hrun' hstep
  exact h (es ++ es₁) e es₂ s₁ s₂ (by simp) (run_append.mpr ⟨s', hrun, hrun'⟩) hstep

theorem Along.left (h : M.Along P s (es ++ fs)) : M.Along P s es := by
  rintro es₁ e es₂ s₁ s₂ rfl hrun' hstep
  exact h es₁ e (es₂ ++ fs) s₁ s₂ (by simp) hrun' hstep

theorem Along.run_invariant {I : σ → Prop} (h : M.Along P s es)
    (hstep : ∀ s e s', I s → M.step s e = some s' → P s e s' → I s') (hs : I s)
    (hrun : M.run s es = some s') : I s' := by
  induction es generalizing s with
  | nil =>
    obtain rfl : s = s' := Option.some.inj hrun
    exact hs
  | cons e es ih =>
    obtain ⟨s₁, hs₁, hrun⟩ := run_cons.mp hrun
    obtain ⟨hP, hrest⟩ := along_cons.mp h s₁ hs₁
    exact ih hrest (hstep s e s₁ hs hs₁ hP) hrun

def Throughout (M : Machine σ ε) (J : σ → Prop) (s : σ) (es : List ε) : Prop :=
  ∀ es₁ es₂ s₁, es = es₁ ++ es₂ → M.run s es₁ = some s₁ → J s₁

variable {J : σ → Prop}

theorem Throughout.along (h : M.Throughout J s es) : M.Along (fun s _ _ => J s) s es :=
  fun es₁ e es₂ s₁ _ heq hrun _ => h es₁ (e :: es₂) s₁ heq hrun

theorem throughout_nil : M.Throughout J s [] ↔ J s := by
  constructor
  · intro h
    exact h [] [] s rfl rfl
  · intro h es₁ es₂ s₁ heq hrun
    obtain ⟨rfl, rfl⟩ : es₁ = [] ∧ es₂ = [] := by simpa using heq.symm
    obtain rfl : s = s₁ := Option.some.inj hrun
    exact h

theorem throughout_cons : M.Throughout J s (e :: es) ↔
    J s ∧ ∀ s', M.step s e = some s' → M.Throughout J s' es := by
  constructor
  · intro h
    refine ⟨h [] (e :: es) s rfl rfl, ?_⟩
    rintro s' hs' es₁ es₂ s₁ rfl hrun
    exact h (e :: es₁) es₂ s₁ rfl (run_cons.mpr ⟨s', hs', hrun⟩)
  · rintro ⟨hs, h⟩ es₁ es₂ s₁ heq hrun
    cases es₁ with
    | nil =>
      obtain rfl : s = s₁ := Option.some.inj hrun
      exact hs
    | cons d es₁ =>
      obtain ⟨rfl, rfl⟩ : e = d ∧ es = es₁ ++ es₂ := by simpa using heq
      obtain ⟨s', hs', hrun⟩ := run_cons.mp hrun
      exact h s' hs' es₁ es₂ s₁ rfl hrun

theorem Along.throughout_iff {I J : σ → Prop} (hQ : M.Along Q s es) (hI : I s) (hJ : J s)
    (hstep : ∀ s e s', I s → J s → M.step s e = some s' → Q s e s' → I s' ∧ (J s' ↔ P s e s')) :
    M.Throughout J s es ↔ M.Along P s es := by
  induction es generalizing s with
  | nil => exact ⟨fun _ => along_nil, fun _ => throughout_nil.mpr hJ⟩
  | cons e es ih =>
    rw [throughout_cons, along_cons]
    constructor
    · rintro ⟨-, h⟩ s' hs'
      obtain ⟨hQe, hQ'⟩ := along_cons.mp hQ s' hs'
      obtain ⟨hI', hJ'⟩ := hstep s e s' hI hJ hs' hQe
      have hthroughout := h s' hs'
      have hs'J : J s' := hthroughout [] es s' rfl rfl
      exact ⟨hJ'.mp hs'J, (ih hQ' hI' hs'J).mp hthroughout⟩
    · intro h
      refine ⟨hJ, fun s' hs' => ?_⟩
      obtain ⟨hQe, hQ'⟩ := along_cons.mp hQ s' hs'
      obtain ⟨hI', hJ'⟩ := hstep s e s' hI hJ hs' hQe
      obtain ⟨hP, halong⟩ := h s' hs'
      exact (ih hQ' hI' (hJ'.mpr hP)).mpr halong

theorem throughout_iff_along {I J : σ → Prop} (hI : I s) (hJ : J s)
    (hstep : ∀ s e s', I s → J s → M.step s e = some s' → I s' ∧ (J s' ↔ P s e s')) :
    M.Throughout J s es ↔ M.Along P s es :=
  Along.throughout_iff (Q := fun _ _ _ => True) (fun _ _ _ _ _ _ _ _ => trivial) hI hJ
    fun s e s' hI hJ hs' _ => hstep s e s' hI hJ hs'

instance decidableThroughout (M : Machine σ ε) (J : σ → Prop) [DecidablePred J] :
    (s : σ) → (es : List ε) → Decidable (M.Throughout J s es)
  | _, [] => decidable_of_iff _ throughout_nil.symm
  | s, e :: es =>
    match h : M.step s e with
    | none => decidable_of_iff (J s) (by simp [throughout_cons, h])
    | some s' =>
      have := decidableThroughout M J s' es
      decidable_of_iff (J s ∧ M.Throughout J s' es) (by simp [throughout_cons, h])

end Machine

end TinyKV
