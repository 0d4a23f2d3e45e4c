import Mathlib.Data.List.Basic

/-!
# Writers that tell where a value ends

A writer is self-delimiting when what it wrote can be told from whatever follows.
A reader shows it (`of_reader`), and a list of such values that a mark closes is written
that way again (`list`).
-/

variable {α γ : Type*}

/-- From the text and the rest behind it, the value and the rest can be read. -/
def SelfDelimiting (write : α → List γ) : Prop :=
  ∀ a b r r', write a ++ r = write b ++ r' → a = b ∧ r = r'

namespace SelfDelimiting

theorem injective {write : α → List γ} (h : SelfDelimiting write) : Function.Injective write :=
  fun a b heq => (h a b [] [] (congrArg (· ++ []) heq)).1

/-- A reader that gives the value and the rest back. -/
theorem of_reader {write : α → List γ} (read : List γ → Option (α × List γ))
    (h : ∀ a r, read (write a ++ r) = some (a, r)) : SelfDelimiting write := by
  intro a b r r' heq
  have hread : some (a, r) = some (b, r') := by rw [← h a r, heq, h b r']
  exact Prod.mk.inj (Option.some.inj hread)

/-- A list, up to a closing mark. -/
def writeAll (write : α → List γ) (close : γ) : List α → List γ
  | [] => [close]
  | a :: as => write a ++ writeAll write close as

theorem writeAll_eq (write : α → List γ) (close : γ) (as : List α) :
    writeAll write close as = as.flatMap write ++ [close] := by
  induction as with
  | nil => rfl
  | cons a as ih => rw [writeAll, ih, List.flatMap_cons, List.append_assoc]

/-- No element may begin with the closing mark. -/
theorem list {write : α → List γ} (h : SelfDelimiting write) {close : γ}
    (hclose : ∀ a r r', write a ++ r ≠ close :: r') : SelfDelimiting (writeAll write close) := by
  intro as bs
  induction as generalizing bs with
  | nil =>
    intro r r' heq
    cases bs with
    | nil => exact ⟨rfl, List.tail_eq_of_cons_eq heq⟩
    | cons b bs =>
      have hfirst : close :: r = write b ++ (writeAll write close bs ++ r') := by
        simpa [writeAll] using heq
      exact absurd hfirst.symm (hclose b _ _)
  | cons a as ih =>
    intro r r' heq
    cases bs with
    | nil =>
      have hfirst : write a ++ (writeAll write close as ++ r) = close :: r' := by
        simpa [writeAll] using heq
      exact absurd hfirst (hclose a _ _)
    | cons b bs =>
      have hfirst : write a ++ (writeAll write close as ++ r) =
          write b ++ (writeAll write close bs ++ r') := by
        simpa [writeAll] using heq
      obtain ⟨rfl, hrest⟩ := h a b _ _ hfirst
      obtain ⟨hbs, hend⟩ := ih bs r r' hrest
      exact ⟨congrArg (List.cons a) hbs, hend⟩

end SelfDelimiting
