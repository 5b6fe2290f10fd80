import ProcessLogic.Text.Reader
import ProcessLogic.Text.Alphanumeric

/-!
# What readers read

How a reader behaves on a text whose front it accepts or refuses, combinator by combinator, and
which characters can belong to a name.
-/

set_option autoImplicit false

namespace ProcessLogic.Text

theorem CharSet.contains_iff {set : CharSet} {c : Char} :
    set.contains c = true ↔ ∃ run ∈ set, run.1 ≤ c.toNat ∧ c.toNat ≤ run.2 := by
  simp [CharSet.contains]

theorem CharSet.contains_eq_false_of_apart {s t : CharSet} {c : Char}
    (h : ∀ a ∈ s, ∀ b ∈ t, a.2 < b.1 ∨ b.2 < a.1) (hc : s.contains c = true) :
    t.contains c = false := by
  obtain ⟨a, ha, ha₁, ha₂⟩ := CharSet.contains_iff.mp hc
  apply Bool.eq_false_iff.mpr
  intro ht
  obtain ⟨b, hb, hb₁, hb₂⟩ := CharSet.contains_iff.mp ht
  have := h a ha b hb
  omega

/-- Letters and digits of any script, and the underscore. -/
def IsWordChar (c : Char) : Prop := isAlphanumeric c = true ∨ c = '_'

theorem IsWordChar.isBlank_eq_false {c : Char} (hc : IsWordChar c) : isBlank c = false := by
  rcases hc with hc | rfl
  · apply CharSet.contains_eq_false_of_apart _ hc
    decide +kernel
  · decide

theorem IsWordChar.ne {c d : Char} (hc : IsWordChar c) (hd : d ∈ "<>[]()!\"".toList) : c ≠ d := by
  have hmarks : ("<>[]()!\"".toList.all fun d => !isAlphanumeric d && d != '_') = true := by
    decide +kernel
  obtain ⟨hfalse, hne⟩ : isAlphanumeric d = false ∧ d ≠ '_' := by
    simpa using List.all_eq_true.mp hmarks d hd
  intro h
  subst h
  rcases hc with hc | hc
  · simp [hfalse] at hc
  · exact hne hc

theorem IsWordChar.not_mem {c : Char} {marks : List Char} (hc : IsWordChar c)
    (hmarks : marks ⊆ "<>[]()!\"".toList) : c ∉ marks := by
  intro hmem
  exact hc.ne (hmarks hmem) rfl

theorem isDigit_iff {c : Char} : c.isDigit = true ↔ 0x30 ≤ c.toNat ∧ c.toNat ≤ 0x39 := by
  simp [Char.isDigit, UInt32.le_iff_toNat_le]

theorem isAlpha_iff {c : Char} :
    c.isAlpha = true ↔ 0x41 ≤ c.toNat ∧ c.toNat ≤ 0x5A ∨ 0x61 ≤ c.toNat ∧ c.toNat ≤ 0x7A := by
  have halpha : c.isAlpha = (c.isUpper || c.isLower) := rfl
  have hupper : c.isUpper = decide (c.val ≥ 'A'.val ∧ c.val ≤ 'Z'.val) := rfl
  have hlower : c.isLower = (decide (c.val ≥ 'a'.val) && decide (c.val ≤ 'z'.val)) := rfl
  simp [halpha, hupper, hlower, UInt32.le_iff_toNat_le]

namespace Reader

theorem isWordChar_of_isLetter {c : Char} (h : isLetter c = true) : IsWordChar c := by
  rcases Bool.or_eq_true_iff.mp h with halpha | hunderscore
  · left
    apply CharSet.contains_iff.mpr
    rcases isAlpha_iff.mp halpha with hupper | hlower
    · exact ⟨(0x41, 0x5A), .tail _ (.head _), hupper⟩
    · exact ⟨(0x61, 0x7A), .tail _ (.tail _ (.head _)), hlower⟩
  · exact Or.inr (beq_iff_eq.mp hunderscore)

/-- Within ASCII, names take every letter and digit. -/
theorem isLetter_or_isDigit_of_isWordChar {c : Char} (h : IsWordChar c) (hc : c.toNat < 128) :
    (isLetter c || c.isDigit) = true := by
  have hruns : ∀ run ∈ alphanumeric,
      run ∈ [(0x30, 0x39), (0x41, 0x5A), (0x61, 0x7A)] ∨ 128 ≤ run.1 := by decide +kernel
  rcases h with halnum | rfl
  · obtain ⟨run, hrun, hfirst, hlast⟩ := CharSet.contains_iff.mp halnum
    simp only [isLetter, Bool.or_eq_true, isAlpha_iff, isDigit_iff]
    rcases hruns run hrun with hascii | hlate
    · simp only [List.mem_cons, List.not_mem_nil, or_false] at hascii
      rcases hascii with rfl | rfl | rfl
      · exact Or.inr ⟨hfirst, hlast⟩
      · exact Or.inl (Or.inl (Or.inl ⟨hfirst, hlast⟩))
      · exact Or.inl (Or.inl (Or.inr ⟨hfirst, hlast⟩))
    · omega
  · decide

theorem isLetter_or_isDigit_lt {c : Char} (h : (isLetter c || c.isDigit) = true) :
    c.toNat < 128 := by
  simp only [isLetter, Bool.or_eq_true, isAlpha_iff, isDigit_iff, beq_iff_eq] at h
  rcases h with (h | rfl) | h
  · omega
  · decide
  · omega

variable {α β : Type} {r : Reader α} {rs : List (Reader α)} {a : α} {as : List α}
  {s s' s'' w : List Char}

theorem map_of_some (h : r s = some (a, s')) (f : α → β) : r.map f s = some (f a, s') := by
  simp [map, h]

theorem map_of_none (h : r s = none) (f : α → β) : r.map f s = none := by
  simp [map, h]

theorem map_eq_some {f : α → β} {b : β} (h : r.map f s = some (b, s')) :
    ∃ a, r s = some (a, s') ∧ f a = b := by
  cases hr : r s with
  | none => simp [map_of_none hr] at h
  | some p =>
    obtain ⟨a, s''⟩ := p
    rw [map_of_some hr] at h
    obtain ⟨hb, rfl⟩ := Prod.mk.inj (Option.some.inj h)
    exact ⟨a, rfl, hb⟩

theorem andThen_of_some (h : r s = some (a, s')) (f : α → Reader β) :
    r.andThen f s = f a s' := by
  simp [andThen, h]

theorem andThen_of_none (h : r s = none) (f : α → Reader β) : r.andThen f s = none := by
  simp [andThen, h]

theorem orElse_of_some {r' : Reader α} (h : r s = some (a, s')) :
    r.orElse r' s = some (a, s') := by
  simp [orElse, h]

theorem orElse_of_none {r' : Reader α} (h : r s = none) : r.orElse r' s = r' s := by
  simp [orElse, h]

theorem firstOf_of_some (h : r s = some (a, s')) : firstOf (r :: rs) s = some (a, s') :=
  orElse_of_some h

theorem firstOf_of_none (h : r s = none) : firstOf (r :: rs) s = firstOf rs s :=
  orElse_of_none h

theorem firstOf_eq_some (h : firstOf (r :: rs) s = some (a, s')) :
    r s = some (a, s') ∨ r s = none ∧ firstOf rs s = some (a, s') := by
  cases hr : r s with
  | some p => exact Or.inl (by rw [← h, firstOf_of_some hr])
  | none => exact Or.inr ⟨rfl, by rw [← h, firstOf_of_none hr]⟩

theorem firstOf_append_of_none {rs' : List (Reader α)} (h : ∀ r ∈ rs, r s = none) :
    firstOf (rs ++ rs') s = firstOf rs' s := by
  induction rs with
  | nil => rfl
  | cons r rs ih =>
    have hrest : ∀ r ∈ rs, r s = none := fun r hr => h r (List.mem_cons_of_mem _ hr)
    exact (firstOf_of_none (h r List.mem_cons_self)).trans (ih hrest)

theorem firstOf_of_forall (h : ∀ r ∈ rs, r s = none) : firstOf rs s = none := by
  rw [← List.append_nil rs, firstOf_append_of_none h]
  rfl

/-- Readers that would give something else refuse, so the place of `r` in the list is of no
matter. -/
theorem firstOf_of_mem (hr : r ∈ rs) (h : ∀ r' ∈ rs, r' s = none ∨ r' s = r s) :
    firstOf rs s = r s := by
  induction rs with
  | nil => simp at hr
  | cons r' rs ih =>
    have hrest : ∀ r' ∈ rs, r' s = none ∨ r' s = r s := fun r' hr' => h r' (.tail _ hr')
    cases hfirst : r' s with
    | some x =>
      have heq : r' s = r s := (h r' (.head _)).resolve_left (by simp [hfirst])
      rw [← heq, hfirst]
      exact firstOf_of_some hfirst
    | none =>
      rw [firstOf_of_none hfirst]
      rcases List.mem_cons.mp hr with rfl | hr
      · rw [hfirst]
        have hnone : ∀ r' ∈ rs, r' s = none := by
          intro r' hr'
          rcases hrest r' hr' with hr' | hr'
          · exact hr'
          · rw [hr', hfirst]
        exact firstOf_of_forall hnone
      · exact ih hr hrest

theorem firstOf_singleton (r : Reader α) : firstOf [r] = r := by
  funext s
  cases h : r s <;> simp [firstOf, orElse, h]

theorem padded_of_some (hs : trimLeft s = s) (h : r s = some (a, s')) :
    padded r s = some (a, trimLeft s') := by
  simp [padded, hs, h]

theorem padded_of_none (hs : trimLeft s = s) (h : r s = none) : padded r s = none := by
  simp [padded, hs, h]

theorem padded_eq_some (h : padded r s = some (a, s')) :
    ∃ s'', r (trimLeft s) = some (a, s'') ∧ s' = trimLeft s'' := by
  unfold padded at h
  cases hr : r (trimLeft s) with
  | none => simp [hr] at h
  | some p =>
    obtain ⟨b, s''⟩ := p
    simp only [hr, Option.some.injEq, Prod.mk.injEq] at h
    exact ⟨s'', by rw [h.1], h.2.symm⟩

theorem word_append (w s : List Char) : word w (w ++ s) = some ((), s) := by
  simp [word, after?_eq_some_iff.mpr rfl]

theorem word_of_ne (h : ∀ rest, s ≠ w ++ rest) : word w s = none := by
  apply Option.map_eq_none_iff.mpr
  apply Option.eq_none_iff_forall_ne_some.mpr
  intro rest hrest
  exact h rest (after?_eq_some_iff.mp hrest)

theorem word_of_head {c d : Char} (h : d ≠ c) : word (c :: w) (d :: s) = none := by
  apply word_of_ne
  intro rest heq
  exact h (List.cons.inj heq).1

theorem between_of_some {opening closing : List Char} (h : r s = some (a, closing ++ s')) :
    between opening closing r (opening ++ s) = some (a, s') := by
  unfold between
  rw [andThen_of_some (word_append opening s), andThen_of_some h]
  exact map_of_some (word_append closing s') _

theorem between_of_none {opening closing : List Char} (h : word opening s = none) :
    between opening closing r s = none :=
  andThen_of_none h _

theorem between_of_inner_none (opening : List Char) {closing : List Char} (h : r s = none) :
    between opening closing r (opening ++ s) = none := by
  unfold between
  rw [andThen_of_some (word_append opening s), andThen_of_none h]

theorem between_of_unclosed (opening : List Char) {closing : List Char} (h : r s = some (a, s'))
    (hclosing : word closing s' = none) : between opening closing r (opening ++ s) = none := by
  unfold between
  rw [andThen_of_some (word_append opening s), andThen_of_some h]
  exact map_of_none hclosing _

theorem many_of_none {n : Nat} (h : r s = none) : many r n s = ([], s) := by
  cases n <;> simp [many, h]

theorem many_of_some {n : Nat} (h : r s = some (a, s')) (hmany : many r n s' = (as, s'')) :
    many r (n + 1) s = (a :: as, s'') := by
  simp [many, h, hmany]

theorem separated_of_some {n : Nat} (h : r s = some (a, s'))
    (hmany : many ((padded (word w)).andThen fun _ => r) n s' = (as, s'')) :
    separated w n r s = some (a :: as, s'') := by
  unfold separated
  rw [andThen_of_some h]
  simp [hmany]

theorem trimLeft_cons {c : Char} (h : isBlank c = false) : trimLeft (c :: s) = c :: s := by
  simp [trimLeft, h]

theorem trimLeft_space (h : trimLeft s = s) : trimLeft (' ' :: s) = s := h

theorem trimLeft_trimLeft (s : List Char) : trimLeft (trimLeft s) = trimLeft s := by
  induction s with
  | nil => rfl
  | cons c s ih =>
    by_cases hc : isBlank c
    · simpa [trimLeft, hc] using ih
    · simp [trimLeft, hc]

/-- A letter or underscore, then letters, underscores and digits, all of them ASCII. -/
def IsIdentifier : List Char → Prop
  | [] => False
  | c :: s => isLetter c = true ∧ (s.all fun d => isLetter d || d.isDigit) = true

instance : DecidablePred IsIdentifier
  | [] => .isFalse id
  | _ :: _ => inferInstanceAs (Decidable (_ ∧ _))

theorem IsIdentifier.exists_cons (hw : IsIdentifier w) : ∃ c s, w = c :: s ∧ IsWordChar c := by
  cases w with
  | nil => exact hw.elim
  | cons c s => exact ⟨c, s, rfl, isWordChar_of_isLetter hw.1⟩

theorem IsIdentifier.trimLeft_append (hw : IsIdentifier w) (s : List Char) :
    trimLeft (w ++ s) = w ++ s := by
  obtain ⟨c, t, rfl, hc⟩ := hw.exists_cons
  exact trimLeft_cons hc.isBlank_eq_false

/-- No name goes on with what is left. -/
def EndsName (s : List Char) : Prop := ∀ c ∈ s.head?, (isLetter c || c.isDigit) = false

theorem endsName_cons {c : Char} (h : (isLetter c || c.isDigit) = false) : EndsName (c :: s) := by
  simpa [EndsName] using h

theorem takeWhile_append_of_ends {p : Char → Bool} (hs : ∀ c ∈ s, p c = true)
    (hs' : ∀ c ∈ s'.head?, p c = false) :
    (s ++ s').takeWhile p = s ∧ (s ++ s').dropWhile p = s' := by
  rw [List.takeWhile_append_of_pos hs, List.dropWhile_append_of_pos hs]
  cases s' with
  | nil => simp
  | cons c s' => simp [hs' c rfl]

theorem identifier_append (hw : IsIdentifier w) (hs : EndsName s) :
    identifier (w ++ s) = some (w, s) := by
  cases w with
  | nil => exact hw.elim
  | cons c w =>
    obtain ⟨htake, hdrop⟩ := takeWhile_append_of_ends (List.all_eq_true.mp hw.2) hs
    simp only [List.cons_append, identifier, hw.1, if_true, htake, hdrop]

/-- A name is taken whole. -/
theorem identifier_eq_some (h : identifier s = some (w, s')) : s = w ++ s' ∧ EndsName s' := by
  cases s with
  | nil => simp [identifier] at h
  | cons c s =>
    by_cases hc : isLetter c = true
    · simp only [identifier, hc, if_true, Option.some.injEq, Prod.mk.injEq] at h
      obtain ⟨rfl, rfl⟩ := h
      refine ⟨by simp, ?_⟩
      intro d hd
      have hhead := List.head?_dropWhile_not (fun d : Char => isLetter d || d.isDigit) s
      simpa only [Option.mem_def.mp hd] using hhead
    · simp [identifier, hc] at h

theorem identifier_isIdentifier (h : identifier s = some (w, s')) : IsIdentifier w := by
  cases s with
  | nil => simp [identifier] at h
  | cons c s =>
    by_cases hc : isLetter c = true
    · simp only [identifier, hc, if_true, Option.some.injEq, Prod.mk.injEq] at h
      obtain ⟨rfl, -⟩ := h
      exact ⟨hc, List.all_takeWhile⟩
    · simp [identifier, hc] at h

theorem identifier_of_head (h : ∀ c ∈ s.head?, isLetter c = false) : identifier s = none := by
  cases s with
  | nil => rfl
  | cons c s => simp [identifier, h c rfl]

theorem keyword_append_self (hw : IsIdentifier w) (hs : EndsName s) :
    keyword w (w ++ s) = some ((), s) := by
  simp [keyword, andThen_of_some (identifier_append hw hs)]

theorem keyword_append_of_ne {x : List Char} (hx : IsIdentifier x) (hs : EndsName s) (h : x ≠ w) :
    keyword w (x ++ s) = none := by
  simp [keyword, andThen_of_some (identifier_append hx hs), h]

theorem keyword_of_head {c : Char} (h : isLetter c = false) : keyword w (c :: s) = none :=
  andThen_of_none (identifier_of_head (by simpa using h)) _

/-- Whatever is read has the property. -/
def Yields (r : Reader α) (P : α → Prop) : Prop := ∀ s a s', r s = some (a, s') → P a

variable {P : α → Prop} {Q : β → Prop}

theorem Yields.map (h : r.Yields P) {f : α → β} (hf : ∀ a, P a → Q (f a)) :
    (r.map f).Yields Q := by
  intro s b s' hread
  obtain ⟨a, hr, rfl⟩ := map_eq_some hread
  exact hf a (h s a s' hr)

theorem Yields.andThen (h : r.Yields P) {f : α → Reader β} (hf : ∀ a, P a → (f a).Yields Q) :
    (r.andThen f).Yields Q := by
  intro s b s' hread
  cases hr : r s with
  | none => simp [andThen_of_none hr] at hread
  | some p =>
    obtain ⟨a, s''⟩ := p
    rw [andThen_of_some hr] at hread
    exact hf a (h s a s'' hr) s'' b s' hread

theorem yields_true (r : Reader α) : r.Yields fun _ => True := fun _ _ _ _ => trivial

theorem yields_firstOf (h : ∀ r ∈ rs, r.Yields P) : (firstOf rs).Yields P := by
  intro s a s' hread
  induction rs with
  | nil => simp [firstOf] at hread
  | cons r rs ih =>
    rcases firstOf_eq_some hread with hr | ⟨-, hrest⟩
    · exact h r List.mem_cons_self s a s' hr
    · exact ih (fun r hr => h r (List.mem_cons_of_mem _ hr)) hrest

theorem Yields.padded (h : r.Yields P) : r.padded.Yields P := by
  intro s a s' hread
  obtain ⟨s'', hr, -⟩ := padded_eq_some hread
  exact h _ a s'' hr

theorem Yields.between (h : r.Yields P) (opening closing : List Char) :
    (between opening closing r).Yields P :=
  (yields_true _).andThen fun _ _ => h.andThen fun _ ha => (yields_true _).map fun _ _ => ha

theorem Yields.many (h : r.Yields P) (n : Nat) (s : List Char) : ∀ a ∈ (many r n s).1, P a := by
  induction n generalizing s with
  | zero => simp [Reader.many]
  | succ n ih =>
    cases hr : r s with
    | none => simp [many_of_none hr]
    | some p =>
      obtain ⟨a, s'⟩ := p
      rw [many_of_some hr rfl]
      intro b hb
      rcases List.mem_cons.mp hb with rfl | hb
      · exact h s b s' hr
      · exact ih s' b hb

theorem Yields.separated (h : r.Yields P) (w : List Char) (n : Nat) :
    (separated w n r).Yields fun as => as ≠ [] ∧ ∀ a ∈ as, P a := by
  refine Yields.andThen h ?_
  intro a ha s as s' hread
  obtain ⟨rfl, -⟩ := Prod.mk.inj (Option.some.inj hread)
  have hitem := (yields_true (Reader.padded (word w))).andThen fun _ _ => h
  refine ⟨List.cons_ne_nil _ _, ?_⟩
  intro b hb
  rcases List.mem_cons.mp hb with rfl | hb
  · exact ha
  · exact hitem.many n s b hb

end Reader

end ProcessLogic.Text
