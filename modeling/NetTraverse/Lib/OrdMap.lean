import Mathlib

/-!
# Maps in key order

An `OrdMap` is a finite map that is iterated in the order of its keys: a list of
entries with strictly increasing keys. `find?` after `insert` and `filter`
determines the map, and `next?` is the step of an iterator. `sweep` is the loop
that erases entries while it iterates.
-/

/-- A finite map in key order. -/
structure OrdMap (α β : Type) [LinearOrder α] where
  entries : List (α × β)
  sorted : entries.Pairwise fun a b => a.1 < b.1

namespace OrdMap

variable {α β : Type} [LinearOrder α]

/-- Insert into a sorted list, in place of an entry with the same key. -/
def insertEntry (k : α) (v : β) : List (α × β) → List (α × β)
  | [] => [(k, v)]
  | e :: es =>
    if k < e.1 then (k, v) :: e :: es
    else if e.1 < k then e :: insertEntry k v es
    else (k, v) :: es

theorem mem_insertEntry {k : α} {v : β} {es : List (α × β)} {x : α × β}
    (h : x ∈ insertEntry k v es) : x = (k, v) ∨ x ∈ es := by
  induction es with
  | nil => exact .inl (List.mem_singleton.mp h)
  | cons e es ih =>
    rw [insertEntry] at h
    split at h
    · exact (List.mem_cons.mp h).imp id id
    · split at h
      · rcases List.mem_cons.mp h with rfl | h
        · exact .inr List.mem_cons_self
        · exact (ih h).imp id (List.mem_cons_of_mem _)
      · exact (List.mem_cons.mp h).imp id (List.mem_cons_of_mem _)

theorem pairwise_insertEntry {k : α} {v : β} {es : List (α × β)}
    (h : es.Pairwise fun a b => a.1 < b.1) :
    (insertEntry k v es).Pairwise fun a b => a.1 < b.1 := by
  induction es with
  | nil => exact List.pairwise_singleton _ _
  | cons e es ih =>
    obtain ⟨hhead, htail⟩ := List.pairwise_cons.mp h
    rw [insertEntry]
    split
    · next hlt =>
      refine List.pairwise_cons.mpr ⟨fun x hx => ?_, h⟩
      rcases List.mem_cons.mp hx with rfl | hx
      · exact hlt
      · exact lt_trans hlt (hhead x hx)
    · next hge =>
      split
      · next hgt =>
        refine List.pairwise_cons.mpr ⟨fun x hx => ?_, ih htail⟩
        rcases mem_insertEntry hx with rfl | hx
        · exact hgt
        · exact hhead x hx
      · next hle =>
        have heq : e.1 = k := le_antisymm (not_lt.mp hge) (not_lt.mp hle)
        exact List.pairwise_cons.mpr ⟨fun x hx => heq ▸ hhead x hx, htail⟩

def empty : OrdMap α β := ⟨[], List.Pairwise.nil⟩

variable (m : OrdMap α β)

def insert (k : α) (v : β) : OrdMap α β :=
  ⟨insertEntry k v m.entries, pairwise_insertEntry m.sorted⟩

/-- Keep the entries that satisfy `p`. -/
def filter (p : α → β → Bool) : OrdMap α β :=
  ⟨m.entries.filter fun e => p e.1 e.2, m.sorted.filter _⟩

/-- The value of a key. -/
def find? (k : α) : Option β := (m.entries.find? fun e => e.1 = k).map Prod.snd

/-- The entry with the least key. -/
def first? : Option (α × β) := m.entries.head?

/-- The entry that follows the key `k`. -/
def next? (k : α) : Option (α × β) := m.entries.find? fun e => k < e.1

variable {m} {k j : α} {v w : β}

/-! ## Entries -/

theorem find?_eq_some : m.find? k = some v ↔ (k, v) ∈ m.entries := by
  obtain ⟨es, hs⟩ := m
  simp only [find?, Option.map_eq_some_iff]
  constructor
  · rintro ⟨⟨k', v'⟩, hfind, rfl⟩
    obtain rfl : k' = k := by simpa using List.find?_some hfind
    exact List.mem_of_find?_eq_some hfind
  · intro hmem
    induction es with
    | nil => cases hmem
    | cons e es ih =>
      obtain ⟨hhead, htail⟩ := List.pairwise_cons.mp hs
      rcases List.mem_cons.mp hmem with rfl | hmem
      · exact ⟨(k, v), by simp, rfl⟩
      · have hne : e.1 ≠ k := ne_of_lt (hhead _ hmem)
        obtain ⟨x, hx, hv⟩ := ih htail hmem
        exact ⟨x, by simpa [hne] using hx, hv⟩

theorem find?_eq_none : m.find? k = none ↔ ∀ v, (k, v) ∉ m.entries := by
  rw [Option.eq_none_iff_forall_ne_some]
  exact forall_congr' fun v => not_congr find?_eq_some

theorem insertEntry_self (k : α) (v : β) (es : List (α × β)) : (k, v) ∈ insertEntry k v es := by
  induction es with
  | nil => exact List.mem_cons_self
  | cons e es ih =>
    rw [insertEntry]
    split
    · exact List.mem_cons_self
    · split
      · exact List.mem_cons_of_mem _ ih
      · exact List.mem_cons_self

theorem mem_insertEntry_of_mem {es : List (α × β)} {x : α × β} (h : x ∈ es) (hne : x.1 ≠ k) :
    x ∈ insertEntry k v es := by
  induction es with
  | nil => cases h
  | cons e es ih =>
    rw [insertEntry]
    split
    · exact List.mem_cons_of_mem _ h
    · next hge =>
      split
      · rcases List.mem_cons.mp h with rfl | h
        · exact List.mem_cons_self
        · exact List.mem_cons_of_mem _ (ih h)
      · next hle =>
        rcases List.mem_cons.mp h with rfl | h
        · exact absurd (le_antisymm (not_lt.mp hge) (not_lt.mp hle)) hne
        · exact List.mem_cons_of_mem _ h

@[simp] theorem find?_insert_self : (m.insert k v).find? k = some v :=
  find?_eq_some.mpr (insertEntry_self k v m.entries)

theorem find?_insert_of_ne (hne : j ≠ k) : (m.insert k v).find? j = m.find? j := by
  apply Option.ext
  intro w
  rw [find?_eq_some, find?_eq_some]
  constructor
  · intro h
    exact (mem_insertEntry h).resolve_left fun heq => hne (congrArg Prod.fst heq)
  · exact fun h => mem_insertEntry_of_mem h hne

theorem find?_insert : (m.insert k v).find? j = if j = k then some v else m.find? j := by
  split
  · next heq => rw [heq, find?_insert_self]
  · next hne => exact find?_insert_of_ne hne

theorem find?_filter {p : α → β → Bool} :
    (m.filter p).find? k = (m.find? k).filter (p k) := by
  apply Option.ext
  intro v
  rw [find?_eq_some, Option.filter_eq_some_iff, find?_eq_some]
  simp [filter]

@[simp] theorem find?_empty : (empty : OrdMap α β).find? k = none := rfl

/-! ## Iteration -/

/-- The first entry is the least one. -/
theorem first?_eq_some (h : m.first? = some (k, v)) :
    m.find? k = some v ∧ ∀ j w, m.find? j = some w → k ≤ j := by
  obtain ⟨es, hs⟩ := m
  cases es with
  | nil => cases h
  | cons e es =>
    obtain rfl : e = (k, v) := Option.some.inj h
    obtain ⟨hhead, -⟩ := List.pairwise_cons.mp hs
    refine ⟨find?_eq_some.mpr List.mem_cons_self, fun j w hj => ?_⟩
    rcases List.mem_cons.mp (find?_eq_some.mp hj) with heq | hmem
    · exact le_of_eq (congrArg Prod.fst heq).symm
    · exact le_of_lt (hhead _ hmem)

theorem first?_eq_none (h : m.first? = none) : m.find? k = none := by
  obtain ⟨es, hs⟩ := m
  cases es with
  | nil => rfl
  | cons e es => cases h

/-- The entry that follows `k` is the least one above it. -/
theorem next?_eq_some (h : m.next? k = some (j, w)) :
    m.find? j = some w ∧ k < j ∧ ∀ i x, m.find? i = some x → k < i → j ≤ i := by
  obtain ⟨es, hs⟩ := m
  refine ⟨find?_eq_some.mpr (List.mem_of_find?_eq_some h), by simpa using List.find?_some h,
    fun i x hi hlt => ?_⟩
  have hmem : (i, x) ∈ es := find?_eq_some.mp hi
  clear hi
  change es.find? (fun e => decide (k < e.1)) = some (j, w) at h
  induction es with
  | nil => cases hmem
  | cons e es ih =>
    obtain ⟨hhead, htail⟩ := List.pairwise_cons.mp hs
    by_cases he : k < e.1
    · obtain rfl : e = (j, w) := by simpa [he] using h
      rcases List.mem_cons.mp hmem with heq | hmem
      · exact le_of_eq (congrArg Prod.fst heq).symm
      · exact le_of_lt (hhead _ hmem)
    · rcases List.mem_cons.mp hmem with rfl | hmem
      · exact absurd hlt he
      · exact ih htail hmem (by simpa [he] using h)

/-- An iterator goes through the entries in order. -/
theorem next?_eq_head? {pre suf : List (α × β)} {e : α × β} (h : m.entries = pre ++ e :: suf) :
    m.next? e.1 = suf.head? := by
  have hsorted := h ▸ m.sorted
  obtain ⟨-, hsuf, hpre⟩ := List.pairwise_append.mp hsorted
  have hpast : pre.find? (fun x => decide (e.1 < x.1)) = none :=
    List.find?_eq_none.mpr fun x hx => by simpa using le_of_lt (hpre x hx e List.mem_cons_self)
  rw [next?, h, List.find?_append, hpast, Option.none_or, List.find?_cons_of_neg (by simp)]
  cases suf with
  | nil => rfl
  | cons x suf =>
    have hlt : e.1 < x.1 := (List.pairwise_cons.mp hsuf).1 x List.mem_cons_self
    simp [hlt]

theorem next?_eq_none (h : m.next? k = none) (hlt : k < j) : m.find? j = none := by
  refine find?_eq_none.mpr fun w hmem => ?_
  have hnot := List.find?_eq_none.mp h (j, w) hmem
  simp [hlt] at hnot

/-! ## Erasing while iterating -/

/-- Remove the entry of `k`. -/
def erase (m : OrdMap α β) (k : α) : OrdMap α β := m.filter fun j _ => j ≠ k

/-- The loop `while (it != end) it = p(*it) ? erase(it) : ++it`, from the entry
that `it` is at. -/
def sweepFrom (p : α → β → Bool) : Nat → OrdMap α β → Option (α × β) → OrdMap α β
  | 0, m, _ => m
  | _ + 1, m, none => m
  | n + 1, m, some (k, v) =>
    if p k v then sweepFrom p n (m.erase k) (m.next? k) else sweepFrom p n m (m.next? k)

/-- The loop from `begin()`. It takes one round for each entry. -/
def sweep (m : OrdMap α β) (p : α → β → Bool) : OrdMap α β :=
  sweepFrom p m.entries.length m m.first?

theorem entries_injective {m m' : OrdMap α β} (h : m.entries = m'.entries) : m = m' := by
  cases m
  cases m'
  simpa using h

/-- The key at a place of the list is erased at that place only. -/
theorem entries_erase {pre suf : List (α × β)} {e : α × β} (h : m.entries = pre ++ e :: suf) :
    (m.erase e.1).entries = pre ++ suf := by
  obtain ⟨-, hsuf, hpre⟩ := List.pairwise_append.mp (h ▸ m.sorted)
  have hpre' : pre.filter (fun x => decide (x.1 ≠ e.1)) = pre :=
    List.filter_eq_self.mpr fun x hx => by simpa using (hpre x hx e List.mem_cons_self).ne
  have hsuf' : suf.filter (fun x => decide (x.1 ≠ e.1)) = suf :=
    List.filter_eq_self.mpr fun x hx => by simpa using ((List.pairwise_cons.mp hsuf).1 x hx).ne'
  show m.entries.filter (fun x => decide (x.1 ≠ e.1)) = _
  rw [h, List.filter_append, List.filter_cons_of_neg (by simp), hpre', hsuf']

/-- What is behind the iterator stays, what is before it is filtered. -/
theorem entries_sweepFrom {p : α → β → Bool} {n : Nat} {pre suf : List (α × β)}
    (h : m.entries = pre ++ suf) (hn : suf.length ≤ n) :
    (sweepFrom p n m suf.head?).entries = pre ++ suf.filter fun e => !p e.1 e.2 := by
  induction suf generalizing m n pre with
  | nil => cases n <;> simpa [sweepFrom] using h
  | cons e suf ih =>
    obtain ⟨k, v⟩ := e
    cases n with
    | zero => cases hn
    | succ n =>
      have hle : suf.length ≤ n := Nat.le_of_succ_le_succ hn
      rw [List.head?_cons, sweepFrom, next?_eq_head? h]
      split
      · next hp =>
        rw [ih (entries_erase h) hle, List.filter_cons_of_neg (by simp [hp])]
      · next hp =>
        have h' : m.entries = (pre ++ [(k, v)]) ++ suf := by simp [h]
        rw [ih h' hle, List.filter_cons_of_pos (by simp [hp]), List.append_assoc,
          List.singleton_append]

/-- The loop keeps what does not satisfy `p`. -/
theorem sweep_eq_filter (m : OrdMap α β) (p : α → β → Bool) :
    m.sweep p = m.filter fun k v => !p k v :=
  entries_injective (entries_sweepFrom (List.nil_append m.entries).symm (Nat.le_refl _))

end OrdMap
