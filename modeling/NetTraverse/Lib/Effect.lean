import Mathlib

/-!
# Programs that call their environment

A program over an interface is a tree: it returns, or makes a call `e : E` and
goes on with an answer in `R e`. A `World` answers calls and changes its state
with each; `none` means that no answer ever comes.

* `calls` lists the calls of a program, each with the state that it is made in,
  the last one unanswered if the program is stuck there.
* `run` gives the value that the program returns.
* `calls_front`: when the answers of a world are those of a simpler one along
  an abstraction of the states, a program makes a prefix of the same calls, and
  `run_front`: if it returns, it returns the same.
* `calls_eq`, `run_eq`: it makes all of them, and returns the same, when the world
  has the credit to answer.
* `eval` and `asked` are the value and the calls where the answers do not change.
-/

/-- A program over an interface. -/
inductive Prog (E : Type) (R : E → Type) (α : Type) where
  | ret (a : α)
  | call (e : E) (k : R e → Prog E R α)

namespace Prog

variable {E : Type} {R : E → Type} {α β σ τ : Type}

def bind : Prog E R α → (α → Prog E R β) → Prog E R β
  | ret a, f => f a
  | call e k, f => call e fun r => bind (k r) f

instance : Monad (Prog E R) where
  pure := ret
  bind := bind

theorem bind_ret (p : Prog E R α) : p.bind ret = p := by
  induction p with
  | ret a => rfl
  | call e k ih => exact congrArg (call e) (funext ih)

theorem bind_bind {γ : Type} (p : Prog E R α) (f : α → Prog E R β) (g : β → Prog E R γ) :
    (p.bind f).bind g = p.bind fun a => (f a).bind g := by
  induction p with
  | ret a => rfl
  | call e k ih => exact congrArg (call e) (funext ih)

instance : LawfulMonad (Prog E R) :=
  LawfulMonad.mk' (Prog E R) bind_ret (fun _ _ => rfl) bind_bind

/-- One call. -/
def perform (e : E) : Prog E R (R e) := call e ret

/-- What answers calls. -/
abbrev World (E : Type) (R : E → Type) (σ : Type) := σ → (e : E) → Option (R e × σ)

/-- The value returned, and the state then. -/
def run (w : World E R σ) : σ → Prog E R α → Option (α × σ)
  | s, ret a => some (a, s)
  | s, call e k => (w s e).bind fun (r, s') => run w s' (k r)

/-- The calls made, each with the state before it. -/
def calls (w : World E R σ) : σ → Prog E R α → List (E × σ)
  | _, ret _ => []
  | s, call e k => (e, s) :: (match w s e with
    | none => []
    | some (r, s') => calls w s' (k r))

variable {w : World E R σ} {s s' : σ} {e : E} {r : R e}

theorem calls_call {k : R e → Prog E R α} (h : w s e = some (r, s')) :
    calls w s (call e k) = (e, s) :: calls w s' (k r) := by
  rw [calls, h]

theorem calls_stuck {k : R e → Prog E R α} (h : w s e = none) :
    calls w s (call e k) = [(e, s)] := by
  rw [calls, h]

theorem run_call {k : R e → Prog E R α} (h : w s e = some (r, s')) :
    run w s (call e k) = run w s' (k r) := by
  rw [run, h, Option.bind_some]

theorem run_stuck {k : R e → Prog E R α} (h : w s e = none) : run w s (call e k) = none := by
  rw [run, h, Option.bind_none]

/-! ## Fixed answers -/

section Fixed

variable (answer : ∀ e, R e)

/-- The value returned when each call has one answer. -/
def eval : Prog E R α → α
  | ret a => a
  | call e k => eval (k (answer e))

/-- The calls made then. -/
def asked : Prog E R α → List E
  | ret _ => []
  | call e k => e :: asked (k (answer e))

@[simp] theorem eval_pure (a : α) : eval answer (pure a : Prog E R α) = a := rfl

@[simp] theorem asked_pure (a : α) : asked answer (pure a : Prog E R α) = [] := rfl

@[simp] theorem eval_perform (e : E) : eval answer (perform e : Prog E R (R e)) = answer e := rfl

@[simp] theorem asked_perform (e : E) : asked answer (perform e : Prog E R (R e)) = [e] := rfl

@[simp] theorem eval_bind (p : Prog E R α) (f : α → Prog E R β) :
    eval answer (p >>= f) = eval answer (f (eval answer p)) := by
  induction p with
  | ret a => rfl
  | call e k ih => exact ih (answer e)

@[simp] theorem asked_bind (p : Prog E R α) (f : α → Prog E R β) :
    asked answer (p >>= f) = asked answer p ++ asked answer (f (eval answer p)) := by
  induction p with
  | ret a => rfl
  | call e k ih => exact congrArg (e :: ·) (ih (answer e))

@[simp] theorem eval_map (f : α → β) (p : Prog E R α) :
    eval answer (f <$> p) = f (eval answer p) := by
  rw [← bind_pure_comp, eval_bind, eval_pure]

@[simp] theorem asked_map (f : α → β) (p : Prog E R α) :
    asked answer (f <$> p) = asked answer p := by
  rw [← bind_pure_comp, asked_bind, asked_pure, List.append_nil]

end Fixed

/-! ## Two worlds -/

variable {w' : World E R τ} {abs : σ → τ}

/-- Where the first world answers, the second one gives the same answer. -/
theorem calls_front (hsim : ∀ s e r s', w s e = some (r, s') → w' (abs s) e = some (r, abs s'))
    (s : σ) (p : Prog E R α) :
    (calls w s p).map (Prod.map id abs) <+: calls w' (abs s) p := by
  induction p generalizing s with
  | ret a => exact List.prefix_rfl
  | call e k ih =>
    cases h : w s e with
    | none =>
      rw [calls_stuck h, calls]
      exact (List.prefix_cons_inj (e, abs s)).mpr List.nil_prefix
    | some answer =>
      obtain ⟨r, s'⟩ := answer
      rw [calls_call h, calls_call (hsim s e r s' h), List.map_cons]
      exact (List.prefix_cons_inj (e, abs s)).mpr (ih r s')

theorem run_front (hsim : ∀ s e r s', w s e = some (r, s') → w' (abs s) e = some (r, abs s'))
    {s t : σ} {p : Prog E R α} {a : α} (h : run w s p = some (a, t)) :
    run w' (abs s) p = some (a, abs t) := by
  induction p generalizing s with
  | ret b =>
    obtain ⟨rfl, rfl⟩ := Prod.mk.inj (Option.some.inj h)
    rfl
  | call e k ih =>
    cases hw : w s e with
    | none =>
      rw [run_stuck hw] at h
      cases h
    | some answer =>
      obtain ⟨r, s'⟩ := answer
      rw [run_call hw] at h
      rw [run_call (hsim s e r s' hw)]
      exact ih r h

/-- An answer costs credit, and with enough of it the first world gives every
answer that the second one gives. -/
theorem calls_eq {cost : E → Nat} {credit : σ → Nat}
    (hsim : ∀ s e r t, w' (abs s) e = some (r, t) → cost e ≤ credit s →
      ∃ s', w s e = some (r, s') ∧ abs s' = t ∧ credit s ≤ credit s' + cost e)
    (hstuck : ∀ s e, w' (abs s) e = none → w s e = none)
    (s : σ) (p : Prog E R α)
    (hcredit : ((calls w' (abs s) p).map fun c => cost c.1).sum ≤ credit s) :
    (calls w s p).map (Prod.map id abs) = calls w' (abs s) p := by
  induction p generalizing s with
  | ret a => rfl
  | call e k ih =>
    cases h : w' (abs s) e with
    | none =>
      rw [calls_stuck h, calls_stuck (hstuck s e h)]
      rfl
    | some answer =>
      obtain ⟨r, t⟩ := answer
      rw [calls_call h, List.map_cons, List.sum_cons] at hcredit
      dsimp only at hcredit
      obtain ⟨s', hw, rfl, hleft⟩ := hsim s e r t h (by omega)
      rw [calls_call h, calls_call hw, List.map_cons, ih r s' (by omega)]
      rfl

theorem run_eq {cost : E → Nat} {credit : σ → Nat}
    (hsim : ∀ s e r t, w' (abs s) e = some (r, t) → cost e ≤ credit s →
      ∃ s', w s e = some (r, s') ∧ abs s' = t ∧ credit s ≤ credit s' + cost e)
    {s : σ} {p : Prog E R α} {a : α} {t : τ} (h : run w' (abs s) p = some (a, t))
    (hcredit : ((calls w' (abs s) p).map fun c => cost c.1).sum ≤ credit s) :
    ∃ s', run w s p = some (a, s') ∧ abs s' = t := by
  induction p generalizing s with
  | ret b =>
    obtain ⟨rfl, rfl⟩ := Prod.mk.inj (Option.some.inj h)
    exact ⟨s, rfl, rfl⟩
  | call e k ih =>
    cases hw : w' (abs s) e with
    | none =>
      rw [run_stuck hw] at h
      cases h
    | some answer =>
      obtain ⟨r, u⟩ := answer
      rw [run_call hw] at h
      rw [calls_call hw, List.map_cons, List.sum_cons] at hcredit
      dsimp only at hcredit
      obtain ⟨s', hs, rfl, hleft⟩ := hsim s e r u hw (by omega)
      rw [run_call hs]
      exact ih r h (by omega)

end Prog
