import ProcessLogic.Text.CharSet

/-!
# Blank text

White space, and cutting text at a character.
-/

set_option autoImplicit false

namespace ProcessLogic.Text

/-- The white space of running text; zero width characters are none. -/
def blank : CharSet := [
  (0x9, 0xD), (0x20, 0x20), (0x85, 0x85), (0xA0, 0xA0), (0x1680, 0x1680), (0x2000, 0x200A),
  (0x2028, 0x2029), (0x202F, 0x202F), (0x205F, 0x205F), (0x3000, 0x3000)]

def isBlank (c : Char) : Bool := blank.contains c

def trimLeft (s : List Char) : List Char := s.dropWhile isBlank

def trimRight (s : List Char) : List Char := (trimLeft s.reverse).reverse

def trim (s : List Char) : List Char := trimRight (trimLeft s)

/-- The text before and after the first `c`. -/
def cut? (c : Char) (s : List Char) : Option (List Char × List Char) :=
  match s.dropWhile (· ≠ c) with
  | [] => none
  | _ :: after => some (s.takeWhile (· ≠ c), after)

/-- What follows `word` at the start of the text. -/
def after? : List Char → List Char → Option (List Char)
  | [], s => some s
  | _ :: _, [] => none
  | c :: word, d :: s => if c = d then after? word s else none

/-- What stands before a final `c`. -/
def before? (c : Char) (s : List Char) : Option (List Char) :=
  (after? [c] s.reverse).map List.reverse

theorem cut?_cons (c d : Char) (s : List Char) :
    cut? c (d :: s) = if d = c then some ([], s) else (cut? c s).map fun p => (d :: p.1, p.2) := by
  by_cases hd : d = c
  · simp [cut?, hd]
  · simp only [cut?, hd, List.dropWhile_cons, List.takeWhile_cons, ne_eq, not_false_eq_true,
      decide_true, if_true, if_false]
    split <;> simp

theorem cut?_eq_some_iff {c : Char} {s before after : List Char} :
    cut? c s = some (before, after) ↔ s = before ++ c :: after ∧ c ∉ before := by
  induction s generalizing before with
  | nil => simp [cut?]
  | cons d s ih =>
    by_cases hd : d = c
    · subst hd
      cases before with
      | nil => simp [cut?_cons, eq_comm]
      | cons e before =>
        simp only [cut?_cons, if_true, List.cons_append, List.cons.injEq]
        constructor
        · intro h
          simp at h
        · rintro ⟨⟨he, -⟩, hc⟩
          exact absurd (he ▸ List.mem_cons_self) hc
    · simp only [cut?_cons, if_neg hd, Option.map_eq_some_iff, Prod.mk.injEq, Prod.exists]
      constructor
      · rintro ⟨b, a, h, rfl, rfl⟩
        obtain ⟨rfl, hb⟩ := ih.mp h
        exact ⟨by simp, by simp [hb, Ne.symm hd]⟩
      · rintro ⟨h, hb⟩
        cases before with
        | nil => simp_all
        | cons e before =>
          simp only [List.cons_append, List.cons.injEq] at h
          have hc : c ∉ before := fun hc => hb (List.mem_cons_of_mem e hc)
          exact ⟨before, after, ih.mpr ⟨h.2, hc⟩, by rw [h.1], rfl⟩

theorem after?_eq_some_iff {word s rest : List Char} :
    after? word s = some rest ↔ s = word ++ rest := by
  induction word generalizing s with
  | nil => simp [after?]
  | cons c word ih =>
    cases s with
    | nil => simp [after?]
    | cons d s =>
      by_cases hd : c = d
      · subst hd
        simp [after?, ih]
      · simp [after?, hd, Ne.symm hd]

theorem before?_eq_some_iff {c : Char} {s rest : List Char} :
    before? c s = some rest ↔ s = rest ++ [c] := by
  unfold before?
  constructor
  · intro h
    obtain ⟨r, hr, rfl⟩ := Option.map_eq_some_iff.mp h
    have := congrArg List.reverse (after?_eq_some_iff.mp hr)
    simpa using this
  · rintro rfl
    exact Option.map_eq_some_iff.mpr ⟨rest.reverse, after?_eq_some_iff.mpr (by simp), by simp⟩

/-- A character in front of the lines that follow it. -/
def addToLines (c : Char) (lines : List (List Char)) : List (List Char) :=
  if c = '\n' then [] :: lines
  else
    match lines with
    | [] => [[c]]
    | line :: rest => (c :: line) :: rest

/-- Pieces between line feeds. -/
def lines (s : List Char) : List (List Char) := s.foldr addToLines [[]]

end ProcessLogic.Text
