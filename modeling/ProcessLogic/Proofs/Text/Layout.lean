import Mathlib.Data.List.Induction
import Mathlib.Data.List.TakeWhile
import ProcessLogic.Text.Numeral
import ProcessLogic.Proofs.Text.Reader

/-!
# Numerals, blanks and lines

A printed number reads as itself, trimming takes nothing but blanks, and a text falls into the lines
it was put together from.
-/

set_option autoImplicit false

namespace ProcessLogic.Text

open Reader

section Numeral

variable {c : Char} {s s' : List Char} {m n d : Nat}

theorem digit?_digitChar (h : n < 10) : digit? n.digitChar = some n := by
  decide +revert

theorem readDigits_append : readDigits m (s ++ s') = (readDigits m s).bind (readDigits · s') := by
  induction s generalizing m with
  | nil => rfl
  | cons c s ih =>
    simp only [List.cons_append, readDigits]
    split
    · rfl
    · split
      · exact ih
      · rfl

theorem numeral_of_lt (hd : d < 10) : numeral d = [d.digitChar] := Nat.toDigits_of_lt_base hd

theorem numeral_append (hn : 0 < n) (hd : d < 10) :
    numeral (10 * n + d) = numeral n ++ [d.digitChar] := by
  rw [← numeral_of_lt hd]
  exact (Nat.toDigits_append_toDigits (by decide) hn hd).symm

theorem readDigits_numeral (h : n < wordBound) : readDigits 0 (numeral n) = .ok n := by
  induction n using Nat.strongRecOn with
  | ind n ih =>
    by_cases hn : n < 10
    · rw [numeral_of_lt hn]
      simp [readDigits, digit?_digitChar hn, h]
    · have hlast : n % 10 < 10 := Nat.mod_lt n (by decide)
      have hsplit := numeral_append (n := n / 10) (by omega) hlast
      rw [Nat.div_add_mod] at hsplit
      rw [hsplit, readDigits_append, ih (n / 10) (by omega) (by omega)]
      simp [Except.bind, readDigits, digit?_digitChar hlast, Nat.div_add_mod, h]

theorem isDigit_of_mem_numeral (hc : c ∈ numeral n) : c.isDigit = true :=
  Nat.isDigit_of_mem_toDigits (by decide) (by decide) hc

theorem numeral_not_mem {d : Char} (hd : d.isDigit = false) (n : Nat) : d ∉ numeral n := by
  intro hmem
  have hdigit := isDigit_of_mem_numeral hmem
  simp [hd] at hdigit

theorem isBlank_of_isDigit (hc : c.isDigit = true) : isBlank c = false := by
  apply CharSet.contains_eq_false_of_apart (s := [(0x30, 0x39)]) (by decide)
  simpa [CharSet.contains] using isDigit_iff.mp hc

theorem numeral_ne_nil (n : Nat) : numeral n ≠ [] := Nat.toDigits_ne_nil

/-- Zeros in front do not count. -/
theorem readDigits_zeros (k : Nat) (s : List Char) :
    readDigits 0 (List.replicate k '0' ++ s) = readDigits 0 s := by
  induction k with
  | zero => rfl
  | succ k ih =>
    rw [List.replicate_succ, List.cons_append, readDigits]
    exact ih

theorem readNumeral_of_not_mem (hne : s ≠ []) (hplus : '+' ∉ s) :
    readNumeral s = readDigits 0 s := by
  obtain ⟨c, s, rfl⟩ := List.exists_cons_of_ne_nil hne
  have hc : c ≠ '+' := fun hc => hplus (hc ▸ List.mem_cons_self)
  simp [readNumeral, hc]

theorem readNumeral_plus (hne : s ≠ []) : readNumeral ('+' :: s) = readDigits 0 s := by
  obtain ⟨c, s, rfl⟩ := List.exists_cons_of_ne_nil hne
  rfl

theorem readNumeral_numeral (h : n < wordBound) : readNumeral (numeral n) = .ok n :=
  (readNumeral_of_not_mem (numeral_ne_nil n) (numeral_not_mem (by decide) n)).trans
    (readDigits_numeral h)

/-- Only digits are read, and the value stays a word. -/
theorem readDigits_eq_ok (h : readDigits m s = .ok n) :
    (m < wordBound → n < wordBound) ∧ ∀ c ∈ s, digit? c ≠ none := by
  induction s generalizing m with
  | nil =>
    obtain rfl := Except.ok.inj h
    simp
  | cons c s ih =>
    rw [readDigits] at h
    split at h
    · simp at h
    · next d hd =>
      split at h
      · next hlt =>
        obtain ⟨hn, hs⟩ := ih h
        refine ⟨fun _ => hn hlt, ?_⟩
        simpa [hd] using hs
      · simp at h

theorem readNumeral_eq_ok (h : readNumeral s = .ok n) :
    n < wordBound ∧ ∀ c ∈ s, c = '+' ∨ digit? c ≠ none := by
  unfold readNumeral at h
  split at h
  · simp at h
  · simp at h
  · obtain ⟨hn, hs⟩ := readDigits_eq_ok h
    refine ⟨hn (by decide), ?_⟩
    intro c hc
    exact (List.mem_cons.mp hc).imp_right (hs c)
  · obtain ⟨hn, hs⟩ := readDigits_eq_ok h
    exact ⟨hn (by decide), fun c hc => Or.inr (hs c hc)⟩

theorem digit?_eq_some (h : digit? c = some d) : d < 10 ∧ c = d.digitChar := by
  unfold digit? at h
  obtain ⟨hc, h⟩ := Option.ite_none_right_eq_some.mp h
  obtain rfl := Option.some.inj h
  have hdigit : c.isDigit = true := by simpa [Char.isDigit, Char.le_def] using hc
  obtain ⟨hlow, hhigh⟩ := isDigit_iff.mp hdigit
  have hchar : ∀ d, d < 10 → Char.ofNat (0x30 + d) = d.digitChar := by decide
  have hzero : '0'.toNat = 0x30 := rfl
  have hlt : c.toNat - '0'.toNat < 10 := by omega
  refine ⟨hlt, ?_⟩
  rw [← hchar _ hlt, hzero, Nat.add_sub_cancel' hlow, Char.ofNat_toNat]

theorem readDigits_concat (h : readDigits 0 (s ++ [c]) = .ok n) :
    ∃ m d, readDigits 0 s = .ok m ∧ d < 10 ∧ c = d.digitChar ∧ n = 10 * m + d := by
  rw [readDigits_append] at h
  cases hm : readDigits 0 s with
  | error e => simp [hm, Except.bind] at h
  | ok m =>
    rw [hm] at h
    have hc : readDigits m [c] = .ok n := h
    rw [readDigits] at hc
    split at hc
    · simp at hc
    · next d hd =>
      split at hc
      · obtain ⟨hlt, hchar⟩ := digit?_eq_some hd
        exact ⟨m, d, rfl, hlt, hchar, (Except.ok.inj hc).symm⟩
      · simp at hc

/-- The digits that a number is read from are its numeral, behind any zeros. -/
theorem eq_numeral_of_readDigits (hs : s ≠ []) (h : readDigits 0 s = .ok n) :
    ∃ zeros, s = List.replicate zeros '0' ++ numeral n := by
  induction s using List.reverseRecOn generalizing n with
  | nil => exact absurd rfl hs
  | append_singleton s c ih =>
    obtain ⟨m, d, hm, hd, rfl, rfl⟩ := readDigits_concat h
    by_cases hnil : s = []
    · obtain rfl : 0 = m := by simpa [hnil, readDigits] using hm
      exact ⟨0, by simp [hnil, numeral_of_lt hd]⟩
    · obtain ⟨zeros, hzeros⟩ := ih hnil hm
      rcases Nat.eq_zero_or_pos m with rfl | hpos
      · -- the digits before the last one are zeros
        refine ⟨zeros + 1, ?_⟩
        have hzero : numeral 0 = ['0'] := rfl
        rw [hzeros, hzero, Nat.mul_zero, Nat.zero_add, numeral_of_lt hd, List.replicate_succ']
      · exact ⟨zeros, by rw [numeral_append hpos hd, ← List.append_assoc, ← hzeros]⟩

end Numeral

section Blank

variable {c d : Char} {s t x y : List Char}

theorem isBlank_head_trimLeft (s : List Char) : ∀ c ∈ (trimLeft s).head?, isBlank c = false := by
  intro c hc
  have hhead := List.head?_dropWhile_not isBlank s
  unfold trimLeft at hc
  simpa only [Option.mem_def.mp hc] using hhead

theorem trimLeft_eq_self_iff : trimLeft s = s ↔ ∀ c ∈ s.head?, isBlank c = false := by
  constructor
  · intro h
    rw [← h]
    exact isBlank_head_trimLeft s
  · intro h
    cases s with
    | nil => rfl
    | cons c s => exact trimLeft_cons (h c rfl)

theorem trimRight_append (hc : isBlank c = false) (s : List Char) :
    trimRight (s ++ [c]) = s ++ [c] := by
  simp [trimRight, trimLeft_cons hc]

theorem trim_eq_self (hhead : ∀ c ∈ s.head?, isBlank c = false)
    (hlast : ∀ c ∈ s.getLast?, isBlank c = false) : trim s = s := by
  have hreverse : trimLeft s.reverse = s.reverse := by
    rw [trimLeft_eq_self_iff, List.head?_reverse]
    exact hlast
  rw [trim, trimLeft_eq_self_iff.mpr hhead, trimRight, hreverse, List.reverse_reverse]

theorem trim_of_ends (hhead : s.head? = some c) (hc : isBlank c = false)
    (hlast : s.getLast? = some d) (hd : isBlank d = false) : trim s = s :=
  trim_eq_self (by simpa [hhead] using hc) (by simpa [hlast] using hd)

theorem trimLeft_blank_append (hx : ∀ c ∈ x, isBlank c = true) (s : List Char) :
    trimLeft (x ++ s) = trimLeft s :=
  List.dropWhile_append_of_pos hx

theorem trimRight_append_blank (hy : ∀ c ∈ y, isBlank c = true) (s : List Char) :
    trimRight (s ++ y) = trimRight s := by
  have hreverse : ∀ c ∈ y.reverse, isBlank c = true := by simpa using hy
  rw [trimRight, List.reverse_append, trimLeft_blank_append hreverse]
  rfl

theorem trim_blank_append (hx : ∀ c ∈ x, isBlank c = true) (s : List Char) :
    trim (x ++ s) = trim s := by
  rw [trim, trimLeft_blank_append hx]
  rfl

theorem trim_append_blank (hy : ∀ c ∈ y, isBlank c = true) (s : List Char) :
    trim (s ++ y) = trim s := by
  unfold trim trimLeft
  rw [List.dropWhile_append]
  split
  · next hs => rw [List.isEmpty_iff.mp hs, List.dropWhile_eq_nil_iff.mpr hy]
  · exact trimRight_append_blank hy _

theorem trim_eq_nil (hs : ∀ c ∈ s, isBlank c = true) : trim s = [] := by
  rw [trim, trimLeft, List.dropWhile_eq_nil_iff.mpr hs]
  rfl

theorem trimLeft_append (hc : isBlank c = false) (s t : List Char) :
    trimLeft (s ++ c :: t) = trimLeft s ++ c :: t := by
  induction s with
  | nil => exact trimLeft_cons hc
  | cons d s ih =>
    by_cases hd : isBlank d = true
    · simpa [trimLeft, hd] using ih
    · simp [trimLeft, hd]

theorem trim_of_forall (h : ∀ c ∈ s, isBlank c = false) : trim s = s :=
  trim_eq_self (fun c hc => h c (List.mem_of_mem_head? hc))
    fun c hc => h c (List.mem_of_mem_getLast? hc)

theorem trim_numeral (n : Nat) : trim (numeral n) = numeral n :=
  trim_of_forall fun _ hc => isBlank_of_isDigit (isDigit_of_mem_numeral hc)

theorem trimLeft_subset (s : List Char) : trimLeft s ⊆ s :=
  (List.dropWhile_sublist isBlank).subset

theorem trim_subset (s : List Char) : trim s ⊆ s := by
  intro c hc
  apply trimLeft_subset s
  exact List.mem_reverse.mp (trimLeft_subset _ (List.mem_reverse.mp hc))

theorem mem_trimLeft (hc : isBlank c = false) (h : c ∈ s) : c ∈ trimLeft s := by
  induction s with
  | nil => simp at h
  | cons d s ih =>
    by_cases hd : isBlank d = true
    · have hne : c ≠ d := by
        rintro rfl
        simp [hc] at hd
      have hmem := ih ((List.mem_cons.mp h).resolve_left hne)
      simpa [trimLeft, hd] using hmem
    · rwa [trimLeft_cons (by simpa using hd)]

theorem mem_trimRight (hc : isBlank c = false) (h : c ∈ s) : c ∈ trimRight s :=
  List.mem_reverse.mpr (mem_trimLeft hc (List.mem_reverse.mpr h))

theorem mem_trim (hc : isBlank c = false) (h : c ∈ s) : c ∈ trim s :=
  mem_trimRight hc (mem_trimLeft hc h)

theorem trimRight_prefix (s : List Char) : trimRight s <+: s := by
  have hsuffix : trimLeft s.reverse <:+ s.reverse := List.dropWhile_suffix isBlank
  simpa [trimRight] using List.reverse_prefix.mpr hsuffix

theorem trimLeft_trim (s : List Char) : trimLeft (trim s) = trim s := by
  obtain ⟨t, ht⟩ := trimRight_prefix (trimLeft s)
  rw [trimLeft_eq_self_iff]
  intro c hc
  apply isBlank_head_trimLeft s
  rw [← ht, List.head?_append]
  have hhead : (trimRight (trimLeft s)).head? = some c := hc
  simp [hhead]

theorem trim_trim (s : List Char) : trim (trim s) = trim s := by
  rw [trim, trimLeft_trim, trim, trimRight, trimRight, List.reverse_reverse, trimLeft_trimLeft]

theorem exists_eq_append_trimLeft (s : List Char) :
    ∃ x, (∀ c ∈ x, isBlank c = true) ∧ s = x ++ trimLeft s :=
  ⟨s.takeWhile isBlank, fun _ => List.mem_takeWhile_imp, (List.takeWhile_append_dropWhile).symm⟩

theorem exists_eq_trimRight_append (s : List Char) :
    ∃ y, (∀ c ∈ y, isBlank c = true) ∧ s = trimRight s ++ y := by
  obtain ⟨y, hy, heq⟩ := exists_eq_append_trimLeft s.reverse
  refine ⟨y.reverse, by simpa using hy, ?_⟩
  rw [trimRight, ← List.reverse_append, ← heq, List.reverse_reverse]

/-- Trimming takes blanks off both ends. -/
theorem exists_eq_append_trim (s : List Char) :
    ∃ x y, (∀ c ∈ x, isBlank c = true) ∧ (∀ c ∈ y, isBlank c = true) ∧ s = x ++ trim s ++ y := by
  obtain ⟨x, hx, hleft⟩ := exists_eq_append_trimLeft s
  obtain ⟨y, hy, hright⟩ := exists_eq_trimRight_append (trimLeft s)
  refine ⟨x, y, hx, hy, ?_⟩
  rw [trim, List.append_assoc, ← hright, ← hleft]

end Blank

section Line

variable {line s : List Char}

theorem lines_append (h : '\n' ∉ line) (s : List Char) :
    lines (line ++ '\n' :: s) = line :: lines s := by
  induction line with
  | nil => simp [lines, addToLines]
  | cons c line ih =>
    have hc : c ≠ '\n' := fun hc => h (hc ▸ List.mem_cons_self)
    have hrest := ih fun hmem => h (List.mem_cons_of_mem _ hmem)
    unfold lines at hrest ⊢
    rw [List.cons_append, List.foldr_cons, hrest]
    simp [addToLines, hc]

theorem lines_flatMap {parts : List (List Char)} (h : ∀ line ∈ parts, '\n' ∉ line) :
    lines (parts.flatMap (· ++ ['\n'])) = parts ++ [[]] := by
  induction parts with
  | nil => rfl
  | cons line parts ih =>
    have hline := lines_append (h line List.mem_cons_self) (parts.flatMap (· ++ ['\n']))
    rw [ih fun line hline => h line (List.mem_cons_of_mem _ hline)] at hline
    simpa using hline

theorem lines_of_not_mem (h : '\n' ∉ line) : lines line = [line] := by
  induction line with
  | nil => rfl
  | cons c line ih =>
    have hc : c ≠ '\n' := fun hc => h (hc ▸ List.mem_cons_self)
    have hrest := ih fun hmem => h (List.mem_cons_of_mem _ hmem)
    unfold lines at hrest ⊢
    rw [List.foldr_cons, hrest]
    simp [addToLines, hc]

theorem newline_not_mem_lines (h : line ∈ lines s) : '\n' ∉ line := by
  induction s generalizing line with
  | nil =>
    obtain rfl := List.mem_singleton.mp h
    exact List.not_mem_nil
  | cons c s ih =>
    have hcons : lines (c :: s) = addToLines c (lines s) := rfl
    rw [hcons] at h
    simp only [addToLines] at h
    split at h
    · rcases List.mem_cons.mp h with rfl | h
      · exact List.not_mem_nil
      · exact ih h
    · next hc =>
      split at h
      · obtain rfl := List.mem_singleton.mp h
        simpa using Ne.symm hc
      · next first rest hlines =>
        rcases List.mem_cons.mp h with rfl | h
        · have hfirst : '\n' ∉ first := ih (by simp [hlines])
          simp [hfirst, Ne.symm hc]
        · exact ih (by simp [hlines, h])

end Line

end ProcessLogic.Text
