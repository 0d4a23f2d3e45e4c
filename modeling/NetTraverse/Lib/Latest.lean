import Mathlib.Data.List.Induction

/-!
# The latest event of a history

A history is a list of events, oldest first. `Latest P keeps l c` says that `c`
is the latest event of `l` with `P`, and that nothing that happened after it has
ended its effect: every later event `d` satisfies `keeps c d`.

`Latest.concat_iff` is the step rule. It determines `Latest` of a history from that
of the history before its last event, which is how a state that is updated
event by event is shown to hold what the history says.
-/

variable {α : Type*}

/-- The latest event with `P`, while later events keep it. -/
def Latest (P : α → Prop) (keeps : α → α → Prop) (l : List α) (c : α) : Prop :=
  ∃ before after, l = before ++ c :: after ∧ P c ∧ ∀ d ∈ after, ¬ P d ∧ keeps c d

namespace Latest

variable {P : α → Prop} {keeps : α → α → Prop} {l : List α} {c d : α}

theorem not_nil : ¬ Latest P keeps [] c := by
  rintro ⟨before, after, h, -⟩
  simp at h

/-- The last event is the latest one, or it keeps the one before. -/
theorem concat_iff : Latest P keeps (l ++ [d]) c ↔
    (P d ∧ c = d) ∨ (¬ P d ∧ keeps c d ∧ Latest P keeps l c) := by
  constructor
  · rintro ⟨before, after, h, hc, hafter⟩
    rcases List.eq_nil_or_concat after with rfl | ⟨after, e, rfl⟩
    · obtain ⟨-, rfl⟩ := List.append_singleton_inj.mp h
      exact .inl ⟨hc, rfl⟩
    · rw [List.concat_eq_append, ← List.cons_append, ← List.append_assoc] at h
      obtain ⟨rfl, rfl⟩ := List.append_singleton_inj.mp h
      obtain ⟨hnot, hkeeps⟩ := hafter d (by simp)
      exact .inr ⟨hnot, hkeeps, before, after, rfl, hc,
        fun x hx => hafter x (by simp [hx])⟩
  · rintro (⟨hd, rfl⟩ | ⟨hnot, hkeeps, before, after, rfl, hc, hafter⟩)
    · exact ⟨l, [], rfl, hd, by simp⟩
    · refine ⟨before, after ++ [d], by simp, hc, fun x hx => ?_⟩
      rcases List.mem_append.mp hx with hx | hx
      · exact hafter x hx
      · obtain rfl := List.mem_singleton.mp hx
        exact ⟨hnot, hkeeps⟩

end Latest
