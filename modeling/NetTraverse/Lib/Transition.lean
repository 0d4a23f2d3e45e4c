import Mathlib.Data.List.Infix

/-!
# Runs of partial labelled steps

A system is given by its step function `step : σ → α → Option σ`. The label
`a : α` carries every choice that the system does not make itself (which
process moves, what the environment answers), and `step s a = none` says that
`a` cannot happen in `s`. A run is a list of labels.

* `exec` runs a list of labels; `exec_invariant` is the induction over a run.
* `AllSteps P` and `AllStates Q` speak about every step taken and every state
  met along a run. `allStates_iff_allSteps` is the rule for a property `Q` that
  one step keeps exactly when it meets a condition `P`.
* `outputs` collects what the steps of a run put out, and
  `forall_mem_outputs_iff` turns a property of all of it into one of the steps.
* `exec_simulation` carries a run to a second system along a state map.
* `exec_lockstep` runs two systems on the same labels, along a relation of their
  states.
-/

namespace Transition

variable {σ τ α β : Type*} {step : σ → α → Option σ}

/-- Run a list of labels; `none` when one of them cannot happen. -/
def exec (step : σ → α → Option σ) : σ → List α → Option σ
  | s, [] => some s
  | s, a :: as => (step s a).bind fun s' => exec step s' as

@[simp]
theorem exec_nil (s : σ) : exec step s [] = some s := rfl

theorem exec_cons_iff {s t : σ} {a : α} {as : List α} :
    exec step s (a :: as) = some t ↔ ∃ s', step s a = some s' ∧ exec step s' as = some t := by
  simp [exec, Option.bind_eq_some_iff]

theorem exec_append_iff {s t : σ} {as bs : List α} :
    exec step s (as ++ bs) = some t ↔
      ∃ u, exec step s as = some u ∧ exec step u bs = some t := by
  induction as generalizing s with
  | nil => simp
  | cons a as ih =>
    simp only [List.cons_append, exec_cons_iff, ih]
    constructor
    · rintro ⟨s', hs, u, hu, ht⟩
      exact ⟨u, ⟨s', hs, hu⟩, ht⟩
    · rintro ⟨u, ⟨s', hs, hu⟩, ht⟩
      exact ⟨s', hs, u, hu, ht⟩

/-- A predicate that every step keeps holds at the end of every run. -/
theorem exec_invariant {I : σ → Prop}
    (hstep : ∀ s a s', I s → step s a = some s' → I s') {s t : σ} {as : List α}
    (h0 : I s) (h : exec step s as = some t) : I t := by
  induction as generalizing s with
  | nil => cases h; exact h0
  | cons a as ih =>
    obtain ⟨s', hs, ht⟩ := exec_cons_iff.mp h
    exact ih (hstep s a s' h0 hs) ht

/-! ## Every step and every state of a run -/

/-- Every step of the run meets `P` in the state it is taken from. -/
def AllSteps (step : σ → α → Option σ) (P : σ → α → Prop) : σ → List α → Prop
  | _, [] => True
  | s, a :: as => P s a ∧ ∀ s', step s a = some s' → AllSteps step P s' as

theorem AllSteps.last {P : σ → α → Prop} {s t : σ} {as : List α} {a : α}
    (h : AllSteps step P s (as ++ [a])) (ht : exec step s as = some t) : P t a := by
  induction as generalizing s with
  | nil =>
    cases ht
    exact h.1
  | cons b as ih =>
    obtain ⟨s', hs, ht⟩ := exec_cons_iff.mp ht
    exact ih (h.2 s' hs) ht

theorem AllSteps.mono {P P' : σ → α → Prop} (himp : ∀ s a, P s a → P' s a) {s : σ} {as : List α}
    (h : AllSteps step P s as) : AllSteps step P' s as := by
  induction as generalizing s with
  | nil => trivial
  | cons a as ih => exact ⟨himp s a h.1, fun s' hs => ih (h.2 s' hs)⟩

/-- Along a given run a condition on the steps can be checked. -/
instance decidableAllSteps {P : σ → α → Prop} [∀ s a, Decidable (P s a)] :
    ∀ (s : σ) (as : List α), Decidable (AllSteps step P s as)
  | _, [] => isTrue trivial
  | s, a :: as =>
    match h : step s a with
    | none =>
      decidable_of_iff (P s a)
        ⟨fun hP => ⟨hP, fun s' hs => by rw [h] at hs; cases hs⟩, And.left⟩
    | some s' =>
      have : Decidable (AllSteps step P s' as) := decidableAllSteps s' as
      decidable_of_iff (P s a ∧ AllSteps step P s' as)
        ⟨fun hall => ⟨hall.1, fun s'' hs => Option.some.inj (h.symm.trans hs) ▸ hall.2⟩,
          fun hall => ⟨hall.1, hall.2 s' h⟩⟩

/-- Every state that the run meets satisfies `Q`, the first one included. -/
def AllStates (step : σ → α → Option σ) (Q : σ → Prop) : σ → List α → Prop
  | s, [] => Q s
  | s, a :: as => Q s ∧ ∀ s', step s a = some s' → AllStates step Q s' as

theorem AllStates.first {Q : σ → Prop} {s : σ} : ∀ {as : List α},
    AllStates step Q s as → Q s
  | [], h => h
  | _ :: _, h => h.1

theorem AllStates.last {Q : σ → Prop} {s t : σ} {as : List α}
    (h : AllStates step Q s as) (ht : exec step s as = some t) : Q t := by
  induction as generalizing s with
  | nil => cases ht; exact h
  | cons a as ih =>
    obtain ⟨s', hs, ht⟩ := exec_cons_iff.mp ht
    exact ih (h.2 s' hs) ht

theorem AllStates.mono {Q Q' : σ → Prop} (himp : ∀ s, Q s → Q' s) {s : σ} {as : List α}
    (h : AllStates step Q s as) : AllStates step Q' s as := by
  induction as generalizing s with
  | nil => exact himp s h
  | cons a as ih => exact ⟨himp s h.1, fun s' hs => ih (h.2 s' hs)⟩

/-- A condition that every label meets in every state. -/
theorem allSteps_of_forall {P : σ → α → Prop} {s : σ} {as : List α}
    (h : ∀ a ∈ as, ∀ s, P s a) : AllSteps step P s as := by
  induction as generalizing s with
  | nil => trivial
  | cons a as ih =>
    exact ⟨h a List.mem_cons_self s, fun _ _ => ih fun b hb => h b (List.mem_cons_of_mem _ hb)⟩

/-- What holds in every state holds before every step. -/
theorem AllStates.steps {Q : σ → Prop} {s : σ} {as : List α} (h : AllStates step Q s as) :
    AllSteps step (fun s _ => Q s) s as := by
  induction as generalizing s with
  | nil => trivial
  | cons a as ih => exact ⟨h.1, fun s' hs => ih (h.2 s' hs)⟩

/-- The run rule with a condition on the steps: `I` holds in every state met by
a run whose steps all meet `P`, when a step that meets `P` keeps `I`. -/
theorem allStates_of_allSteps {I : σ → Prop} {P : σ → α → Prop}
    (hstep : ∀ s a s', I s → P s a → step s a = some s' → I s')
    {s : σ} {as : List α} (h0 : I s) (h : AllSteps step P s as) : AllStates step I s as := by
  induction as generalizing s with
  | nil => exact h0
  | cons a as ih => exact ⟨h0, fun s' hs => ih (hstep s a s' h0 h.1 hs) (h.2 s' hs)⟩

/-- A run whose steps can all happen. -/
def Runs (step : σ → α → Option σ) (s : σ) (as : List α) : Prop :=
  ∃ t, exec step s as = some t

/-- When a step that meets `P` keeps `I`, and a step from a state with `I` and
`Q` keeps `Q` exactly when it meets `P`, then `Q` holds along a run exactly when
all steps of the run meet `P`. -/
theorem allStates_iff_allSteps {I Q : σ → Prop} {P : σ → α → Prop}
    (hinv : ∀ s a s', I s → P s a → step s a = some s' → I s')
    (hiff : ∀ s a s', I s → Q s → step s a = some s' → (Q s' ↔ P s a))
    {s : σ} {as : List α} (hI : I s) (hQ : Q s) (hrun : Runs step s as) :
    AllStates step Q s as ↔ AllSteps step P s as := by
  obtain ⟨t, ht⟩ := hrun
  induction as generalizing s with
  | nil => exact ⟨fun _ => trivial, fun _ => hQ⟩
  | cons a as ih =>
    obtain ⟨s', hs, ht⟩ := exec_cons_iff.mp ht
    constructor
    · rintro ⟨_, hall⟩
      have hQ' : Q s' := (hall s' hs).first
      have hP : P s a := (hiff s a s' hI hQ hs).mp hQ'
      refine ⟨hP, fun s'' hs'' => ?_⟩
      obtain rfl := Option.some.inj (hs.symm.trans hs'')
      exact (ih (hinv s a s' hI hP hs) hQ' ht).mp (hall s' hs)
    · rintro ⟨hP, hall⟩
      have hQ' : Q s' := (hiff s a s' hI hQ hs).mpr hP
      refine ⟨hQ, fun s'' hs'' => ?_⟩
      obtain rfl := Option.some.inj (hs.symm.trans hs'')
      exact (ih (hinv s a s' hI hP hs) hQ' ht).mpr (hall s' hs)

/-- A condition on the labels alone. -/
theorem allSteps_iff_forall {P : α → Prop} {s : σ} {as : List α} (hrun : Runs step s as) :
    AllSteps step (fun _ a => P a) s as ↔ ∀ a ∈ as, P a := by
  refine ⟨fun h => ?_, fun h => allSteps_of_forall fun a ha _ => h a ha⟩
  obtain ⟨t, ht⟩ := hrun
  induction as generalizing s with
  | nil => simp
  | cons a as ih =>
    obtain ⟨s', hs, ht⟩ := exec_cons_iff.mp ht
    exact List.forall_mem_cons.mpr ⟨h.1, ih (h.2 s' hs) ht⟩

/-- Two conditions that agree where `I` holds, when a step that meets the first
one keeps `I`. -/
theorem allSteps_congr_of_keeps {I : σ → Prop} {P P' : σ → α → Prop}
    (hinv : ∀ s a s', I s → P s a → step s a = some s' → I s')
    (hiff : ∀ s a, I s → (P s a ↔ P' s a)) {s : σ} {as : List α} (h0 : I s) :
    AllSteps step P s as ↔ AllSteps step P' s as := by
  induction as generalizing s with
  | nil => exact Iff.rfl
  | cons a as ih =>
    constructor
    · rintro ⟨hP, hall⟩
      exact ⟨(hiff s a h0).mp hP, fun s' hs => (ih (hinv s a s' h0 hP hs)).mp (hall s' hs)⟩
    · rintro ⟨hP', hall⟩
      have hP : P s a := (hiff s a h0).mpr hP'
      exact ⟨hP, fun s' hs => (ih (hinv s a s' h0 hP hs)).mpr (hall s' hs)⟩

/-- Two conditions that agree on the steps of a run, when a step that meets the
first one keeps `I`. -/
theorem allSteps_congr {I : σ → Prop} {P P' : σ → α → Prop}
    (hinv : ∀ s a s', I s → P s a → step s a = some s' → I s')
    (hiff : ∀ s a s', I s → step s a = some s' → (P s a ↔ P' s a))
    {s : σ} {as : List α} (h0 : I s) (hrun : Runs step s as) :
    AllSteps step P s as ↔ AllSteps step P' s as := by
  obtain ⟨t, ht⟩ := hrun
  induction as generalizing s with
  | nil => exact Iff.rfl
  | cons a as ih =>
    obtain ⟨s', hs, ht⟩ := exec_cons_iff.mp ht
    have hnext : P s a → ((∀ s'', step s a = some s'' → AllSteps step P s'' as) ↔
        ∀ s'', step s a = some s'' → AllSteps step P' s'' as) := fun hP => by
      refine forall_congr' fun s'' => imp_congr_right fun hs'' => ?_
      obtain rfl := Option.some.inj (hs.symm.trans hs'')
      exact ih (hinv s a s' h0 hP hs) ht
    constructor
    · rintro ⟨hP, hall⟩
      exact ⟨(hiff s a s' h0 hs).mp hP, (hnext hP).mp hall⟩
    · rintro ⟨hP', hall⟩
      have hP := (hiff s a s' h0 hs).mpr hP'
      exact ⟨hP, (hnext hP).mpr hall⟩

/-! ## Outputs -/

variable {ω : Type*}

/-- What the steps of a run put out, in order. -/
def outputs (step : σ → α → Option σ) (out : σ → α → List ω) : σ → List α → List ω
  | _, [] => []
  | s, a :: as =>
    match step s a with
    | none => []
    | some s' => out s a ++ outputs step out s' as

theorem outputs_cons {out : σ → α → List ω} {s s' : σ} {a : α} (h : step s a = some s')
    (as : List α) : outputs step out s (a :: as) = out s a ++ outputs step out s' as := by
  rw [outputs, h]

theorem forall_mem_outputs_iff {out : σ → α → List ω} {R : ω → Prop} {s : σ} {as : List α}
    (hrun : Runs step s as) : (∀ x ∈ outputs step out s as, R x) ↔
      AllSteps step (fun s a => ∀ x ∈ out s a, R x) s as := by
  obtain ⟨t, ht⟩ := hrun
  induction as generalizing s with
  | nil => simp [outputs, AllSteps]
  | cons a as ih =>
    obtain ⟨s', hs, ht⟩ := exec_cons_iff.mp ht
    rw [outputs_cons hs, List.forall_mem_append, ih ht, AllSteps]
    refine and_congr_right fun _ => ⟨fun h s'' hs'' => ?_, fun h => h s' hs⟩
    obtain rfl := Option.some.inj (hs.symm.trans hs'')
    exact h

/-! ## Simulation -/

/-- If every step of the first system is matched by a run of the second one
along `abs`, so is every run, and the labels of the second run are those of
the single steps, in order. -/
theorem exec_simulation {step' : τ → β → Option τ} (abs : σ → τ) {I : σ → Prop}
    (hinv : ∀ s a s', I s → step s a = some s' → I s')
    (hsim : ∀ s a s', I s → step s a = some s' →
      ∃ bs, exec step' (abs s) bs = some (abs s'))
    {s t : σ} {as : List α} (h0 : I s) (h : exec step s as = some t) :
    ∃ bs, exec step' (abs s) bs = some (abs t) := by
  induction as generalizing s with
  | nil => cases h; exact ⟨[], rfl⟩
  | cons a as ih =>
    obtain ⟨s', hs, ht⟩ := exec_cons_iff.mp h
    obtain ⟨bs, hbs⟩ := hsim s a s' h0 hs
    obtain ⟨cs, hcs⟩ := ih (hinv s a s' h0 hs) ht
    exact ⟨bs ++ cs, exec_append_iff.mpr ⟨abs s', hbs, hcs⟩⟩

/-! ## Two systems on the same labels -/

theorem rel_bind {τ' : Type*} {P : σ → τ → Prop} {R : β → τ' → Prop} {x : Option σ} {y : Option τ}
    {f : σ → Option β} {g : τ → Option τ'} (h : Option.Rel P x y)
    (hfg : ∀ s t, P s t → Option.Rel R (f s) (g t)) : Option.Rel R (x.bind f) (y.bind g) := by
  cases h with
  | none => exact .none
  | some hst => exact hfg _ _ hst

/-- When related states take the same labels, to related states, the same runs
happen in both systems and end in related states. -/
theorem exec_lockstep {step' : τ → α → Option τ} {R : σ → τ → Prop}
    (hstep : ∀ s t a, R s t → Option.Rel R (step s a) (step' t a)) {s : σ} {t : τ}
    (as : List α) (h0 : R s t) : Option.Rel R (exec step s as) (exec step' t as) := by
  induction as generalizing s t with
  | nil => exact .some h0
  | cons a as ih => exact rel_bind (hstep s t a h0) fun _ _ h => ih h

/-! ## States that hold maps -/

/-- An entry of a map in which the one of `i` was set is that one, or was there. -/
theorem update_eq_some {ι : Type*} [DecidableEq ι] {f : ι → Option β} {i j : ι} {x : Option β}
    {y : β} : Function.update f i x j = some y ↔ (j = i ∧ x = some y) ∨ (j ≠ i ∧ f j = some y) := by
  rw [Function.update_apply, ite_eq_iff]

end Transition
