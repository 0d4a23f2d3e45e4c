import Mathlib.Data.List.Infix

/-!
# First in, first out

A waiting line with its past: `served` lists what has left the line, oldest
first, and `waiting` what is still in it. Everything that ever joined is
`served ++ waiting`, in the order of joining, and no operation reorders that
list. `served_next` is the law a user of the line needs: what is served after
a point in time starts with what was waiting at that point.
-/

namespace Fifo

variable {α : Type*}

/-- A line and everything it has served so far. -/
structure Line (α : Type*) where
  served : List α
  waiting : List α
deriving DecidableEq, Repr

namespace Line

/-- `x` joins the end of the line. -/
def join (l : Line α) (x : α) : Line α :=
  { l with waiting := l.waiting ++ [x] }

/-- The first of the line leaves it. -/
def serve (l : Line α) : Option (α × Line α) :=
  match l.waiting with
  | [] => none
  | x :: xs => some (x, ⟨l.served ++ [x], xs⟩)

/-- Everything that ever joined the line, in order. -/
def arrivals (l : Line α) : List α :=
  l.served ++ l.waiting

/-- `l'` is a later state of the line `l`. -/
structure Later (l l' : Line α) : Prop where
  served : l.served <+: l'.served
  arrivals : l.arrivals <+: l'.arrivals

theorem Later.refl (l : Line α) : Later l l :=
  ⟨List.prefix_refl _, List.prefix_refl _⟩

theorem Later.trans {l₁ l₂ l₃ : Line α} (h : Later l₁ l₂) (h' : Later l₂ l₃) : Later l₁ l₃ :=
  ⟨h.served.trans h'.served, h.arrivals.trans h'.arrivals⟩

theorem join_later (l : Line α) (x : α) : Later l (l.join x) where
  served := List.prefix_refl _
  arrivals := by simp [arrivals, join, ← List.append_assoc]

theorem serve_eq_some {l l' : Line α} {x : α} (h : l.serve = some (x, l')) :
    l.waiting = x :: l'.waiting ∧ l'.served = l.served ++ [x] := by
  unfold serve at h
  split at h
  · cases h
  · next heq => cases h; exact ⟨heq, rfl⟩

theorem serve_later {l l' : Line α} {x : α} (h : l.serve = some (x, l')) : Later l l' := by
  obtain ⟨hw, hs⟩ := serve_eq_some h
  constructor
  · rw [hs]
    exact List.prefix_append _ _
  · simp [arrivals, hw, hs]

/-- What a later line has served beyond `l` starts with what `l` had waiting,
or is still a part of it. -/
theorem served_next {l l' : Line α} (h : Later l l') :
    ∃ next, l'.served = l.served ++ next ∧ (next <+: l.waiting ∨ l.waiting <+: next) := by
  obtain ⟨next, hnext⟩ := h.served
  refine ⟨next, hnext.symm, ?_⟩
  have harr : l.served ++ l.waiting <+: l.served ++ (next ++ l'.waiting) := by
    have := h.arrivals
    rwa [arrivals, arrivals, ← hnext, List.append_assoc] at this
  rw [List.prefix_append_right_inj] at harr
  exact List.prefix_or_prefix_of_prefix (List.prefix_append next l'.waiting) harr

end Line

end Fifo
