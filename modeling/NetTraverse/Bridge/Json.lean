import NetTraverse.Lib.SelfDelimiting
import Mathlib.Data.FinEnum

/-!
# `dump` of the JSON library

The values of `json.hpp` that the bridge makes, and the text that `dump` writes for
them. Every text is closed by what it begins with, so from a value and whatever
follows it the value can be read back (`dump_split`).
-/

namespace NetTraverse

/-- `basic_json`, without numbers and booleans. The members of an object are in the order
of their keys. -/
inductive Json where
  | null
  | string (text : List UInt8)
  | array (items : List Json)
  | object (members : List (List UInt8 × Json))

namespace Json

/-- The digit of `snprintf` for `%x`. -/
def hexDigit (n : UInt8) : UInt8 := if n < 10 then 48 + n else 87 + n

/-- `dump_escaped`, of one byte. The bytes of a longer code point are copied. -/
def escape (c : UInt8) : List UInt8 :=
  if c = 0x08 then [92, 98]
  else if c = 0x09 then [92, 116]
  else if c = 0x0a then [92, 110]
  else if c = 0x0c then [92, 102]
  else if c = 0x0d then [92, 114]
  else if c = 0x22 then [92, 34]
  else if c = 0x5c then [92, 92]
  else if c ≤ 0x1f then [92, 117, 48, 48, hexDigit (c >>> 4), hexDigit (c &&& 15)]
  else [c]

/-- `dump_escaped`, of text that is valid UTF-8. -/
def dumpEscaped (text : List UInt8) : List UInt8 := text.flatMap escape

mutual

/-- `dump`, without `pretty_print` and `ensure_ascii`. -/
def dump : Json → List UInt8
  | .null => [110, 117, 108, 108]
  | .string text => 34 :: (dumpEscaped text ++ [34])
  | .array [] => [91, 93]
  | .array (item :: items) => 91 :: (dump item ++ dumpItems items)
  | .object [] => [123, 125]
  | .object (member :: members) => 123 :: (dumpMember member ++ dumpMembers members)

/-- The rest of an array. -/
def dumpItems : List Json → List UInt8
  | [] => [93]
  | item :: items => 44 :: (dump item ++ dumpItems items)

def dumpMember : List UInt8 × Json → List UInt8
  | (key, value) => 34 :: (dumpEscaped key ++ [34] ++ 58 :: dump value)

/-- The rest of an object. -/
def dumpMembers : List (List UInt8 × Json) → List UInt8
  | [] => [125]
  | member :: members => 44 :: (dumpMember member ++ dumpMembers members)

end

/-! ## Reading it back -/

/-- The value of a digit. -/
def hexValue (digit : UInt8) : UInt8 := if digit < 58 then digit - 48 else digit - 87

/-- The first byte of escaped text, and what is left. -/
def unescape : List UInt8 → Option (UInt8 × List UInt8)
  | [] => none
  | c :: rest =>
    if c ≠ 92 then some (c, rest)
    else match rest with
      | 98 :: rest => some (0x08, rest)
      | 116 :: rest => some (0x09, rest)
      | 110 :: rest => some (0x0a, rest)
      | 102 :: rest => some (0x0c, rest)
      | 114 :: rest => some (0x0d, rest)
      | 117 :: _ :: _ :: hi :: lo :: rest => some (hexValue hi <<< 4 ||| hexValue lo, rest)
      | c :: rest => some (c, rest)
      | [] => none

theorem hexValue_digits : ∀ c : UInt8, c ≤ 0x1f →
    hexValue (hexDigit (c >>> 4)) <<< 4 ||| hexValue (hexDigit (c &&& 15)) = c := by
  decide +kernel

theorem unescape_escape (c : UInt8) (r : List UInt8) : unescape (escape c ++ r) = some (c, r) := by
  unfold escape
  split_ifs with h₀ h₁ h₂ h₃ h₄ h₅ h₆ hcontrol
  · rw [h₀]; rfl
  · rw [h₁]; rfl
  · rw [h₂]; rfl
  · rw [h₃]; rfl
  · rw [h₄]; rfl
  · rw [h₅]; rfl
  · rw [h₆]; rfl
  · show some (hexValue (hexDigit (c >>> 4)) <<< 4 ||| hexValue (hexDigit (c &&& 15)), r) = _
    rw [hexValue_digits c hcontrol]
  · exact if_pos h₆

theorem escape_ne_quote (c : UInt8) (r r' : List UInt8) : escape c ++ r ≠ 34 :: r' := by
  intro heq
  have hread := unescape_escape c r
  rw [heq] at hread
  obtain rfl : 34 = c := congrArg Prod.fst (Option.some.inj hread)
  cases heq

/-- Text up to the quotation mark. -/
theorem quoted_split {text text' r r' : List UInt8}
    (h : dumpEscaped text ++ 34 :: r = dumpEscaped text' ++ 34 :: r') : text = text' ∧ r = r' := by
  have hlist := (SelfDelimiting.of_reader unescape unescape_escape).list escape_ne_quote
  refine hlist text text' r r' ?_
  simpa only [SelfDelimiting.writeAll_eq, dumpEscaped, List.append_assoc,
    List.singleton_append] using h

/-- The byte that a value begins with. -/
def initial : Json → UInt8
  | null => 110
  | string _ => 34
  | array _ => 91
  | object _ => 123

theorem dump_eq_cons (v : Json) : ∃ rest, dump v = v.initial :: rest := by
  cases v with
  | null => exact ⟨_, rfl⟩
  | string text => exact ⟨_, rfl⟩
  | array items => cases items <;> exact ⟨_, rfl⟩
  | object members => cases members <;> exact ⟨_, rfl⟩

/-- An array ends where no value can begin. -/
theorem dump_ne_close (v : Json) (r r' : List UInt8) : dump v ++ r ≠ 93 :: r' := by
  obtain ⟨rest, hrest⟩ := v.dump_eq_cons
  rw [hrest]
  intro heq
  have hfirst : v.initial = 93 := (List.cons.inj heq).1
  cases v <;> cases hfirst

theorem dumpMember_ne_close (member : List UInt8 × Json) (r r' : List UInt8) :
    dumpMember member ++ r ≠ 125 :: r' := by
  obtain ⟨key, value⟩ := member
  intro heq
  cases (List.cons.inj heq).1

theorem initial_eq {v w : Json} {r r' : List UInt8} (h : dump v ++ r = dump w ++ r') :
    v.initial = w.initial := by
  obtain ⟨_, hv⟩ := v.dump_eq_cons
  obtain ⟨_, hw⟩ := w.dump_eq_cons
  rw [hv, hw] at h
  exact (List.cons.inj h).1

mutual

/-- A value can be told from whatever follows it. -/
theorem dump_split : ∀ (v w : Json) (r r' : List UInt8), dump v ++ r = dump w ++ r' →
    v = w ∧ r = r'
  | .null, w, r, r', h => by
    have hfirst := initial_eq h
    cases w with
    | null => exact ⟨rfl, List.append_cancel_left h⟩
    | _ => cases hfirst
  | .string text, w, r, r', h => by
    have hfirst := initial_eq h
    cases w with
    | string text' =>
      simp only [dump, List.cons_append, List.append_assoc, List.cons.injEq, true_and,
        List.nil_append] at h
      obtain ⟨rfl, hrest⟩ := quoted_split h
      exact ⟨rfl, hrest⟩
    | _ => cases hfirst
  | .array [], w, r, r', h => by
    have hfirst := initial_eq h
    cases w with
    | array items =>
      cases items with
      | nil => exact ⟨rfl, List.append_cancel_left h⟩
      | cons item items =>
        simp only [dump, List.cons_append, List.append_assoc, List.cons.injEq, true_and,
          List.nil_append] at h
        exact absurd h.symm (dump_ne_close item _ _)
    | _ => cases hfirst
  | .array (item :: items), w, r, r', h => by
    have hfirst := initial_eq h
    cases w with
    | array items' =>
      cases items' with
      | nil =>
        simp only [dump, List.cons_append, List.append_assoc, List.cons.injEq, true_and,
          List.nil_append] at h
        exact absurd h (dump_ne_close item _ _)
      | cons item' items' =>
        simp only [dump, List.cons_append, List.append_assoc, List.cons.injEq, true_and] at h
        obtain ⟨rfl, hitems⟩ := dump_split item item' _ _ h
        obtain ⟨rfl, hrest⟩ := dumpItems_split items items' r r' hitems
        exact ⟨rfl, hrest⟩
    | _ => cases hfirst
  | .object [], w, r, r', h => by
    have hfirst := initial_eq h
    cases w with
    | object members =>
      cases members with
      | nil => exact ⟨rfl, List.append_cancel_left h⟩
      | cons member members =>
        simp only [dump, List.cons_append, List.append_assoc, List.cons.injEq, true_and,
          List.nil_append] at h
        exact absurd h.symm (dumpMember_ne_close member _ _)
    | _ => cases hfirst
  | .object (member :: members), w, r, r', h => by
    have hfirst := initial_eq h
    cases w with
    | object members' =>
      cases members' with
      | nil =>
        simp only [dump, List.cons_append, List.append_assoc, List.cons.injEq, true_and,
          List.nil_append] at h
        exact absurd h (dumpMember_ne_close member _ _)
      | cons member' members' =>
        simp only [dump, List.cons_append, List.append_assoc, List.cons.injEq, true_and] at h
        obtain ⟨rfl, hmembers⟩ := dumpMember_split member member' _ _ h
        obtain ⟨rfl, hrest⟩ := dumpMembers_split members members' r r' hmembers
        exact ⟨rfl, hrest⟩
    | _ => cases hfirst

theorem dumpItems_split : ∀ (vs ws : List Json) (r r' : List UInt8),
    dumpItems vs ++ r = dumpItems ws ++ r' → vs = ws ∧ r = r'
  | [], [], r, r', h => ⟨rfl, (List.cons.inj h).2⟩
  | [], w :: ws, r, r', h => absurd (List.cons.inj h).1 (by decide)
  | v :: vs, [], r, r', h => absurd (List.cons.inj h).1 (by decide)
  | v :: vs, w :: ws, r, r', h => by
    simp only [dumpItems, List.cons_append, List.append_assoc, List.cons.injEq, true_and] at h
    obtain ⟨rfl, hrest⟩ := dump_split v w _ _ h
    obtain ⟨rfl, hend⟩ := dumpItems_split vs ws r r' hrest
    exact ⟨rfl, hend⟩

theorem dumpMember_split : ∀ (m n : List UInt8 × Json) (r r' : List UInt8),
    dumpMember m ++ r = dumpMember n ++ r' → m = n ∧ r = r'
  | (key, value), (key', value'), r, r', h => by
    simp only [dumpMember, List.cons_append, List.append_assoc, List.cons.injEq, true_and,
      List.nil_append] at h
    obtain ⟨rfl, hvalue⟩ := quoted_split h
    obtain ⟨rfl, hrest⟩ := dump_split value value' r r' (List.cons.inj hvalue).2
    exact ⟨rfl, hrest⟩

theorem dumpMembers_split : ∀ (ms ns : List (List UInt8 × Json)) (r r' : List UInt8),
    dumpMembers ms ++ r = dumpMembers ns ++ r' → ms = ns ∧ r = r'
  | [], [], r, r', h => ⟨rfl, (List.cons.inj h).2⟩
  | [], n :: ns, r, r', h => absurd (List.cons.inj h).1 (by decide)
  | m :: ms, [], r, r', h => absurd (List.cons.inj h).1 (by decide)
  | m :: ms, n :: ns, r, r', h => by
    simp only [dumpMembers, List.cons_append, List.append_assoc, List.cons.injEq, true_and] at h
    obtain ⟨rfl, hrest⟩ := dumpMember_split m n _ _ h
    obtain ⟨rfl, hend⟩ := dumpMembers_split ms ns r r' hrest
    exact ⟨rfl, hend⟩

end

/-- No two values have one text. -/
theorem dump_injective : Function.Injective dump := SelfDelimiting.injective dump_split

end Json

end NetTraverse
