import ProcessLogic.Formula.Parser
import ProcessLogic.Proofs.Text.Reader

/-!
# The grammar on printed text

Each rule of the grammar on a text that starts with the printed form of what the rule reads, and on
texts that start otherwise. A rule goes as far as the printed form does, given that what follows
cannot continue it.
-/

set_option autoImplicit false

namespace ProcessLogic

open Text Text.Reader

/-- A label does not start with `true` and a character outside ASCII right behind it. -/
def Act.Legible : Act → Prop
  | .label l => ∀ c s, l.toList = "true".toList ++ c :: s → c.toNat < 128
  | _ => True

/-- A label that prints without quotes, as `true` with a character outside ASCII right behind it. -/
def Act.Garbled : Act → Prop
  | .label l =>
    plainLabel l.toList = true ∧ ∃ c s, l.toList = "true".toList ++ c :: s ∧ 128 ≤ c.toNat
  | _ => False

theorem Act.Legible.not_garbled {a : Act} (h : a.Legible) : ¬ a.Garbled := by
  cases a with
  | label l =>
    rintro ⟨-, c, s, hl, hc⟩
    have := h c s hl
    omega
  | every => exact id
  | except l => exact id

namespace Formula

namespace Grammar

theorem isPlain_of_isWordChar {c : Char} (hc : IsWordChar c) : isPlain c = true := by
  have hmark : c ∉ "<>[]!\"".toList := hc.not_mem (by decide)
  simpa [isPlain, hc.isBlank_eq_false] using hmark

theorem plainLabel_iff {l : List Char} :
    plainLabel l = true ↔ l ≠ [] ∧ l ≠ "true".toList ∧ ∀ c ∈ l, IsWordChar c := by
  simp [plainLabel, IsWordChar, and_assoc]

theorem quotedRest_append (l s : List Char) :
    quotedRest (l.flatMap escapeLabel ++ '"' :: s) = some (l, s) := by
  induction l with
  | nil => simp [quotedRest]
  | cons c l ih =>
    by_cases hc : c = '"' ∨ c = '\\'
    · simp [escapeLabel, hc, quotedRest, ih]
    · have hquote : c ≠ '"' := fun h => hc (Or.inl h)
      have hslash : c ≠ '\\' := fun h => hc (Or.inr h)
      simp [escapeLabel, hquote, hslash, quotedRest, ih]

theorem renderLabel_of_plainLabel {l : String} (h : plainLabel l.toList = true) :
    renderLabel l = l.toList := by
  simp [renderLabel, h]

theorem renderLabel_cons (l : String) :
    ∃ c s, renderLabel l = c :: s ∧ isBlank c = false ∧ c ∉ ['<', '[', '!'] := by
  by_cases h : plainLabel l.toList = true
  · obtain ⟨hne, -, hchars⟩ := plainLabel_iff.mp h
    obtain ⟨c, s, hl⟩ := List.exists_cons_of_ne_nil hne
    have hc : IsWordChar c := hchars c (by simp [hl])
    exact ⟨c, s, (renderLabel_of_plainLabel h).trans hl, hc.isBlank_eq_false,
      hc.not_mem (by decide)⟩
  · exact ⟨'"', l.toList.flatMap escapeLabel ++ ['"'], by simp [renderLabel, h], by decide,
      by decide⟩

theorem label_renderLabel (l : String) {d : Char} (hd : isPlain d = false) (s : List Char) :
    label (renderLabel l ++ d :: s) = some (l, d :: s) := by
  have hread : (quoted.orElse plain) (renderLabel l ++ d :: s) = some (l.toList, d :: s) := by
    by_cases h : plainLabel l.toList = true
    · obtain ⟨hne, -, hchars⟩ := plainLabel_iff.mp h
      obtain ⟨c, t, hl⟩ := List.exists_cons_of_ne_nil hne
      have hc : c ≠ '"' := (hchars c (by simp [hl])).ne (by decide)
      have hquoted : quoted (l.toList ++ d :: s) = none := by
        rw [hl]
        exact andThen_of_none (word_of_head hc) _
      have hplain : ∀ c ∈ l.toList, isPlain c = true :=
        fun c hc => isPlain_of_isWordChar (hchars c hc)
      have hhead : ∀ c ∈ (d :: s).head?, isPlain c = false := by simpa using hd
      obtain ⟨htake, hdrop⟩ := takeWhile_append_of_ends hplain hhead
      rw [renderLabel_of_plainLabel h, orElse_of_none hquoted]
      unfold plain
      rw [htake, hdrop]
      simp [hl]
    · have hrender : renderLabel l ++ d :: s =
          ['"'] ++ (l.toList.flatMap escapeLabel ++ '"' :: d :: s) := by simp [renderLabel, h]
      rw [hrender]
      apply orElse_of_some
      exact (andThen_of_some (word_append _ _) _).trans (quotedRest_append l.toList (d :: s))
  unfold label
  simpa using map_of_some hread String.ofList

/-- A plain label that starts with `true` goes on with an ASCII letter, digit or underscore, so the
name there is longer than `true`. -/
theorem not_true_of_label {l : String} (hl : ¬ (Act.label l).Garbled)
    (hplain : plainLabel l.toList = true) {d : Char} (hd : d ∉ "true".toList) {s s' : List Char}
    (htext : l.toList ++ d :: s = "true".toList ++ s') : ¬ EndsName s' := by
  intro hends
  obtain ⟨-, hne, hchars⟩ := plainLabel_iff.mp hplain
  rcases List.append_eq_append_iff.mp htext with ⟨m, hm, hrest⟩ | ⟨m, hm, hrest⟩
  · cases m with
    | nil => exact hne (by simpa using hm.symm)
    | cons e m =>
      obtain ⟨rfl, -⟩ := List.cons.inj hrest
      exact hd (by rw [hm]; simp)
  · cases m with
    | nil => exact hne (by simpa using hm)
    | cons e m =>
      have hword : IsWordChar e := hchars e (by rw [hm]; simp)
      have hascii : e.toNat < 128 :=
        Nat.lt_of_not_le fun hlate => hl ⟨hplain, e, m, hm, hlate⟩
      have hmore := isLetter_or_isDigit_of_isWordChar hword hascii
      have hstop := hends e (by rw [hrest]; simp)
      simp [hmore] at hstop

theorem keyword_true_of_label {l : String} (hl : ¬ (Act.label l).Garbled) {d : Char}
    (hd : d ∉ "true".toList) (s : List Char) :
    keyword "true".toList (renderLabel l ++ d :: s) = none := by
  by_cases hplain : plainLabel l.toList = true
  · rw [renderLabel_of_plainLabel hplain]
    cases hread : identifier (l.toList ++ d :: s) with
    | none => exact andThen_of_none hread _
    | some p =>
      obtain ⟨x, s'⟩ := p
      obtain ⟨htext, hends⟩ := identifier_eq_some hread
      have hx : x ≠ "true".toList := by
        intro hx
        subst hx
        exact not_true_of_label hl hplain hd htext hends
      exact (andThen_of_some hread _).trans (if_neg hx)
  · have hrender : renderLabel l = '"' :: (l.toList.flatMap escapeLabel ++ ['"']) := by
      simp [renderLabel, hplain]
    rw [hrender]
    exact keyword_of_head (by decide)

theorem render_act_cons (a : Act) :
    ∃ c s, a.render = c :: s ∧ isBlank c = false ∧ c ∉ ['<', '['] := by
  cases a with
  | every => exact ⟨'t', _, rfl, by decide, by decide⟩
  | label l =>
    obtain ⟨c, s, hrender, hblank, hc⟩ := renderLabel_cons l
    exact ⟨c, s, hrender, hblank, by simp_all⟩
  | except l => exact ⟨'!', _, rfl, by decide, by decide⟩

theorem trimLeft_renderLabel (l : String) (s : List Char) :
    trimLeft (renderLabel l ++ s) = renderLabel l ++ s := by
  obtain ⟨c, t, hrender, hblank, -⟩ := renderLabel_cons l
  rw [hrender]
  exact trimLeft_cons hblank

theorem trimLeft_act (a : Act) (s : List Char) : trimLeft (a.render ++ s) = a.render ++ s := by
  obtain ⟨c, t, hrender, hblank, -⟩ := render_act_cons a
  rw [hrender]
  exact trimLeft_cons hblank

theorem act_render {a : Act} (ha : ¬ a.Garbled) {d : Char} (hd : d = '>' ∨ d = ']')
    (s : List Char) : act (a.render ++ d :: s) = some (a, d :: s) := by
  obtain ⟨hplain, hblank, hname, htrue⟩ : isPlain d = false ∧ isBlank d = false ∧
      (isLetter d || d.isDigit) = false ∧ d ∉ "true".toList := by
    rcases hd with rfl | rfl <;> decide
  have htrim : trimLeft (d :: s) = d :: s := trimLeft_cons hblank
  unfold act
  rw [← htrim]
  apply padded_of_some (trimLeft_act a _)
  rw [htrim]
  cases a with
  | every =>
    have hends : EndsName (d :: s) := endsName_cons hname
    exact firstOf_of_some (map_of_some (keyword_append_self (by decide) hends) _)
  | label l =>
    have hmark : padded (word ['!']) (renderLabel l ++ d :: s) = none := by
      obtain ⟨c, t, hrender, -, hc⟩ := renderLabel_cons l
      apply padded_of_none (trimLeft_renderLabel l _)
      rw [hrender]
      exact word_of_head (by simp_all)
    apply (firstOf_of_none (map_of_none (keyword_true_of_label ha htrue s) _)).trans
    apply (firstOf_of_none (andThen_of_none hmark _)).trans
    exact firstOf_of_some (map_of_some (label_renderLabel l hplain s) _)
  | except l =>
    have hmark : padded (word ['!']) ('!' :: renderLabel l ++ d :: s) =
        some ((), trimLeft (renderLabel l ++ d :: s)) :=
      padded_of_some (trimLeft_act (.except l) _) (word_append ['!'] _)
    rw [trimLeft_renderLabel] at hmark
    apply (firstOf_of_none (map_of_none (keyword_of_head (by decide)) _)).trans
    apply firstOf_of_some
    exact (andThen_of_some hmark _).trans (map_of_some (label_renderLabel l hplain s) _)

/-- The name at the start of a garbled label is `true`, so the action is read as one that selects
every transition, and the rest of the label is left over. -/
theorem act_of_garbled {a : Act} (ha : a.Garbled) (s : List Char) :
    ∃ c s', act (a.render ++ s) = some (.every, c :: s') ∧ IsWordChar c := by
  cases a with
  | every => exact ha.elim
  | except l => exact ha.elim
  | label l =>
    obtain ⟨hplain, c, m, hl, hc⟩ := ha
    have hword : IsWordChar c := (plainLabel_iff.mp hplain).2.2 c (by rw [hl]; simp)
    have hends : EndsName (c :: (m ++ s)) := by
      apply endsName_cons
      rw [Bool.eq_false_iff]
      intro h
      have := isLetter_or_isDigit_lt h
      omega
    have htext : (Act.label l).render ++ s = "true".toList ++ (c :: (m ++ s)) := by
      simp [Act.render, renderLabel_of_plainLabel hplain, hl]
    have htrue : IsIdentifier "true".toList := by decide
    have hact : act ("true".toList ++ (c :: (m ++ s))) =
        some (.every, trimLeft (c :: (m ++ s))) :=
      padded_of_some (htrue.trimLeft_append _)
        (firstOf_of_some (map_of_some (keyword_append_self htrue hends) _))
    rw [trimLeft_cons hword.isBlank_eq_false] at hact
    exact ⟨c, m ++ s, htext ▸ hact, hword⟩

/-- What stands behind a printed formula that nothing continues: the end, a closing parenthesis, or
one of the given connectives. -/
inductive Ends (qs : List Quantifier) : List Char → Prop where
  | nil : Ends qs []
  | group (s : List Char) : Ends qs (')' :: s)
  | junction {q : Quantifier} (hq : q ∈ qs) (s : List Char) : Ends qs (q.separator ++ s)

section Ends

variable {q : Quantifier} {qs : List Quantifier} {s : List Char}

theorem trimLeft_separator (q : Quantifier) (s : List Char) :
    trimLeft (q.separator ++ s) = connective q ++ ' ' :: s := by
  cases q <;> rfl

theorem Ends.endsName (h : Ends qs s) : EndsName s := by
  cases h with
  | nil => simp [EndsName]
  | group s => exact endsName_cons (by decide)
  | @junction q hq s => cases q <;> exact endsName_cons (by decide)

theorem Ends.head_trimLeft (h : Ends qs s) : ∀ c ∈ (trimLeft s).head?, isLetter c = false := by
  cases h with
  | nil => simp [trimLeft]
  | group s => rw [trimLeft_cons (by decide)]; simp; decide
  | @junction q hq s => rw [trimLeft_separator]; cases q <;> simp [connective] <;> decide

theorem Ends.connective_eq_none (h : Ends qs s) (hq : q ∉ qs) :
    padded (word (connective q)) (trimLeft s) = none := by
  apply padded_of_none (trimLeft_trimLeft s)
  apply word_of_ne
  cases h with
  | nil => cases q <;> simp [trimLeft, connective]
  | group s => rw [trimLeft_cons (by decide)]; cases q <;> simp [connective]
  | @junction q' hq' s =>
    have hne : q ≠ q' := fun h => hq (h ▸ hq')
    rw [trimLeft_separator]
    cases q <;> cases q' <;> simp [connective] at hne ⊢

theorem Ends.cons (h : Ends qs s) : Ends (q :: qs) s := by
  cases h with
  | nil => exact .nil
  | group s => exact .group s
  | junction hq s => exact .junction (List.mem_cons_of_mem _ hq) s

end Ends

section Atom

variable {value : Bool} {words : List (List Char)} {group : Reader Formula} {f : Formula}
  {x s s' : List Char}

theorem constant_of_mem (hx : IsIdentifier x) (hs : EndsName s) (h : x ∈ words) :
    constant value words (x ++ s) = some (.const value, s) := by
  apply map_of_some
  induction words with
  | nil => simp at h
  | cons w words ih =>
    by_cases hw : x = w
    · subst hw
      exact firstOf_of_some (keyword_append_self hx hs)
    · apply (firstOf_of_none (keyword_append_of_ne hx hs hw)).trans
      exact ih (by simpa [hw] using h)

theorem constant_of_forall (h : ∀ w ∈ words, keyword w s = none) :
    constant value words s = none := by
  apply map_of_none
  apply firstOf_of_forall
  intro r hr
  obtain ⟨w, hw, rfl⟩ := List.mem_map.mp hr
  exact h w hw

theorem atom_const (value : Bool) (hs : EndsName s) :
    atom group (constText value ++ s) = some (.const value, trimLeft s) := by
  have hname : IsIdentifier (constText value) := by cases value <;> decide
  apply padded_of_some (hname.trimLeft_append s)
  cases value with
  | true => exact firstOf_of_some (constant_of_mem hname hs (by decide))
  | false =>
    rw [firstOf_of_none, firstOf_of_some (constant_of_mem hname hs (by decide))]
    apply constant_of_forall
    intro w hw
    apply keyword_append_of_ne hname hs
    rintro rfl
    revert hw
    decide

theorem variableName_append {x : String} (hx : IsIdentifier x.toList) (hs : EndsName s) :
    variableName (x.toList ++ s) = some (x, trimLeft s) := by
  have hread := padded_of_some (hx.trimLeft_append s)
    (map_of_some (identifier_append hx hs) String.ofList)
  rwa [String.ofList_toList] at hread

theorem atom_var {x : String} (hx : IsIdentifier x.toList)
    (hne : x ∉ ["tt", "true", "ff", "false"]) (hs : EndsName s) :
    atom group (x.toList ++ s) = some (.var x, trimLeft s) := by
  have hconstant : ∀ value, ∀ words ⊆ ["tt", "true", "ff", "false"].map String.toList,
      constant value words (x.toList ++ s) = none := by
    intro value words hwords
    apply constant_of_forall
    intro w hw
    obtain ⟨y, hy, rfl⟩ := List.mem_map.mp (hwords hw)
    apply keyword_append_of_ne hx hs
    intro h
    exact hne (String.toList_inj.mp h ▸ hy)
  have hgroup : between ['('] [')'] group (x.toList ++ s) = none := by
    obtain ⟨c, t, hcons, hc⟩ := hx.exists_cons
    rw [hcons]
    exact between_of_none (word_of_head (hc.ne (by decide)))
  rw [← trimLeft_trimLeft s]
  apply padded_of_some (hx.trimLeft_append s)
  rw [firstOf_of_none (hconstant _ _ (by decide)), firstOf_of_none (hconstant _ _ (by decide)),
    firstOf_of_none hgroup, firstOf_of_some (map_of_some (variableName_append hx hs) _)]

theorem atom_group (h : group s = some (f, ')' :: s')) :
    atom group ('(' :: s) = some (f, trimLeft s') := by
  have hhead : ∀ w, keyword w ('(' :: s) = none := fun w => keyword_of_head (by decide)
  have hbetween : between ['('] [')'] group ('(' :: s) = some (f, s') := between_of_some h
  apply padded_of_some (trimLeft_cons (by decide))
  rw [firstOf_of_none (constant_of_forall fun w _ => hhead w),
    firstOf_of_none (constant_of_forall fun w _ => hhead w), firstOf_of_some hbetween]

theorem atom_group_none
    (h : group s = none ∨ ∃ f s', group s = some (f, s') ∧ word [')'] s' = none) :
    atom group ('(' :: s) = none := by
  have htrim : trimLeft ('(' :: s) = '(' :: s := trimLeft_cons (by decide)
  have hhead : ∀ w, keyword w ('(' :: s) = none := fun w => keyword_of_head (by decide)
  have hname : identifier ('(' :: s) = none := identifier_of_head (by simp; decide)
  have hbetween : between ['('] [')'] group ('(' :: s) = none := by
    rcases h with h | ⟨f, s', h, hclosing⟩
    · exact between_of_inner_none ['('] h
    · exact between_of_unclosed ['('] h hclosing
  apply padded_of_none htrim
  rw [firstOf_of_none (constant_of_forall fun w _ => hhead w),
    firstOf_of_none (constant_of_forall fun w _ => hhead w), firstOf_of_none hbetween,
    firstOf_singleton]
  exact map_of_none (padded_of_none htrim (map_of_none hname _)) _

theorem atom_of_bracket {c : Char} (hc : c ∈ ['<', '[']) : atom group (c :: s) = none := by
  obtain ⟨hblank, hletter, hparen⟩ : isBlank c = false ∧ isLetter c = false ∧ c ≠ '(' := by
    simp only [List.mem_cons, List.not_mem_nil, or_false] at hc
    rcases hc with rfl | rfl <;> decide
  have htrim : trimLeft (c :: s) = c :: s := trimLeft_cons hblank
  have hhead : ∀ w, keyword w (c :: s) = none := fun w => keyword_of_head hletter
  have hname : identifier (c :: s) = none := identifier_of_head (by simpa using hletter)
  apply padded_of_none htrim
  rw [firstOf_of_none (constant_of_forall fun w _ => hhead w),
    firstOf_of_none (constant_of_forall fun w _ => hhead w),
    firstOf_of_none (between_of_none (word_of_head hparen)), firstOf_singleton]
  exact map_of_none (padded_of_none htrim (map_of_none hname _)) _

end Atom

section Modality

variable {q : Quantifier} {strength : Strength} {body bottom : Reader Formula} {a : Act}
  {f : Formula} {n : Nat} {s s' : List Char}

theorem trimLeft_modalBrackets (q : Quantifier) (strength : Strength) (s : List Char) :
    trimLeft ((modalBrackets q strength).1 ++ s) = (modalBrackets q strength).1 ++ s := by
  cases q <;> cases strength <;> exact trimLeft_cons (by decide)

theorem modality_render (ha : ¬ a.Garbled) (hs : trimLeft s = s) :
    modality q strength body
      ((modalBrackets q strength).1 ++ (a.render ++ ((modalBrackets q strength).2 ++ s))) =
        body.map (.modal q strength a) s := by
  have hact : act (a.render ++ ((modalBrackets q strength).2 ++ s)) =
      some (a, (modalBrackets q strength).2 ++ s) := by
    cases q <;> cases strength <;> exact act_render ha (by decide) _
  have hbetween := padded_of_some (trimLeft_modalBrackets q strength _) (between_of_some hact)
  rw [hs] at hbetween
  exact andThen_of_some hbetween _

theorem modality_of_ne (hs : trimLeft s = s)
    (h : ∀ rest, s ≠ (modalBrackets q strength).1 ++ rest) : modality q strength body s = none :=
  andThen_of_none (padded_of_none hs (between_of_none (word_of_ne h))) _

theorem act_of_bracket {c : Char} (hc : c ∈ ['<', '[']) : act (c :: s) = none := by
  obtain ⟨hblank, hletter, hmark, hquote, hplain⟩ : isBlank c = false ∧ isLetter c = false ∧
      c ≠ '!' ∧ c ≠ '"' ∧ isPlain c = false := by
    simp only [List.mem_cons, List.not_mem_nil, or_false] at hc
    rcases hc with rfl | rfl <;> decide
  have htrim : trimLeft (c :: s) = c :: s := trimLeft_cons hblank
  have hlabel : label (c :: s) = none := by
    apply map_of_none
    apply (orElse_of_none (andThen_of_none (word_of_head hquote) _)).trans
    simp [plain, hplain]
  apply padded_of_none htrim
  rw [firstOf_of_none (map_of_none (keyword_of_head hletter) _),
    firstOf_of_none (andThen_of_none (padded_of_none htrim (word_of_head hmark)) _),
    firstOf_singleton]
  exact map_of_none hlabel _

/-- On the text of a modality no other one is read: its brackets differ, or they are single where
the text has double ones, and no action starts with a bracket. -/
theorem modality_of_other {q' : Quantifier} {strength' : Strength}
    (hne : (q', strength') ≠ (q, strength)) :
    modality q' strength' body ((modalBrackets q strength).1 ++ (a.render ++ s)) = none := by
  obtain ⟨c, t, hrender, -, hc⟩ := render_act_cons a
  simp only [List.mem_cons, List.not_mem_nil, or_false, not_or] at hc
  by_cases hinner : q' = q ∧ strength' = .strong
  · obtain ⟨rfl, rfl⟩ := hinner
    cases strength with
    | strong => exact absurd rfl hne
    | weak =>
      apply andThen_of_none
      apply padded_of_none (trimLeft_modalBrackets q' .weak _)
      cases q' <;> exact between_of_inner_none [_] (act_of_bracket (by decide))
  · apply modality_of_ne (trimLeft_modalBrackets q strength _)
    cases q <;> cases strength <;> cases q' <;> cases strength' <;>
      simp_all [modalBrackets]

/-- The text of a modality is read as that modality or not at all. -/
theorem modalRun_modal_eq {group : Reader Formula} :
    modalRun (atom group) (n + 1) ((modalBrackets q strength).1 ++ (a.render ++ s)) =
      modality q strength (modalRun (atom group) n)
        ((modalBrackets q strength).1 ++ (a.render ++ s)) := by
  have hmem : (q, strength) ∈ modalities := by cases q <;> cases strength <;> decide
  rw [modalRun]
  apply firstOf_of_mem (r := modality q strength (modalRun (atom group) n))
  · exact List.mem_append_left _ (List.mem_map.mpr ⟨_, hmem, rfl⟩)
  intro r hr
  rcases List.mem_append.mp hr with hr | hr
  · obtain ⟨p, -, rfl⟩ := List.mem_map.mp hr
    by_cases hp : p = (q, strength)
    · subst hp
      exact Or.inr rfl
    · exact Or.inl (modality_of_other hp)
  · obtain rfl := List.mem_singleton.mp hr
    left
    cases q <;> cases strength <;> exact atom_of_bracket (by decide)

theorem modalRun_modal {group : Reader Formula} (ha : ¬ a.Garbled) (hs : trimLeft s = s)
    (h : modalRun (atom group) n s = some (f, s')) :
    modalRun (atom group) (n + 1)
      ((modalBrackets q strength).1 ++ (a.render ++ ((modalBrackets q strength).2 ++ s))) =
        some (.modal q strength a f, s') :=
  modalRun_modal_eq.trans ((modality_render ha hs).trans (map_of_some h _))

theorem modalRun_garbled {group : Reader Formula} (ha : a.Garbled) :
    modalRun (atom group) n ((modalBrackets q strength).1 ++ (a.render ++ s)) = none := by
  cases n with
  | zero => rfl
  | succ n =>
    obtain ⟨c, s', hact, hc⟩ := act_of_garbled ha s
    have hclosing : word (modalBrackets q strength).2 (c :: s') = none := by
      cases q <;> cases strength <;> exact word_of_head (hc.ne (by decide))
    rw [modalRun_modal_eq]
    apply andThen_of_none
    exact padded_of_none (trimLeft_modalBrackets q strength _) (between_of_unclosed _ hact hclosing)

theorem modalRun_of_body {group : Reader Formula} (hs : trimLeft s = s)
    (h : ∀ m, modalRun (atom group) m s = none) :
    modalRun (atom group) n
      ((modalBrackets q strength).1 ++ (a.render ++ ((modalBrackets q strength).2 ++ s))) =
        none := by
  by_cases ha : a.Garbled
  · exact modalRun_garbled ha
  · cases n with
    | zero => rfl
    | succ n =>
      rw [modalRun_modal_eq, modality_render ha hs]
      exact map_of_none (h n) _

theorem modalRun_bottom {c : Char} (hblank : isBlank c = false) (hc : c ∉ ['<', '[']) :
    modalRun bottom (n + 1) (c :: s) = bottom (c :: s) := by
  unfold modalRun
  rw [firstOf_append_of_none, firstOf_singleton]
  intro r hr
  obtain ⟨p, -, rfl⟩ := List.mem_map.mp hr
  apply modality_of_ne (trimLeft_cons hblank)
  obtain ⟨q, strength⟩ := p
  simp only [List.mem_cons, List.not_mem_nil, or_false, not_or] at hc
  cases q <;> cases strength <;> simp [modalBrackets, hc]

end Modality

section Binder

variable {k : Extremum} {body : Reader Formula} {qs : List Quantifier} {s s' : List Char}

theorem binder_render {x : String} (hx : IsIdentifier x.toList) (hs : trimLeft s = s) :
    binder k body (k.keyword ++ ' ' :: (x.toList ++ '.' :: ' ' :: s)) =
      body.map (.fix k x) s := by
  have hk : IsIdentifier k.keyword := by cases k <;> decide
  have hspace : EndsName (' ' :: (x.toList ++ '.' :: ' ' :: s)) := endsName_cons (by decide)
  have hdot : EndsName ('.' :: ' ' :: s) := endsName_cons (by decide)
  have hkeyword := padded_of_some (hk.trimLeft_append _) (keyword_append_self hk hspace)
  rw [trimLeft_space (hx.trimLeft_append _)] at hkeyword
  have hname := variableName_append hx hdot
  rw [trimLeft_cons (by decide)] at hname
  have hword := padded_of_some (trimLeft_cons (by decide)) (word_append ['.'] (' ' :: s))
  rw [trimLeft_space hs] at hword
  apply (andThen_of_some hkeyword _).trans
  apply (andThen_of_some hname _).trans
  exact andThen_of_some hword _

/-- A name that stands alone starts no binder, be it `mu` or `nu`. -/
theorem binder_of_name {x : List Char} (hx : IsIdentifier x) (hs : Ends qs s) :
    binder k body (x ++ s) = none := by
  by_cases hk : x = k.keyword
  · subst hk
    have hread := padded_of_some (hx.trimLeft_append s) (keyword_append_self hx hs.endsName)
    apply (andThen_of_some hread _).trans
    apply andThen_of_none
    apply padded_of_none (trimLeft_trimLeft s)
    exact map_of_none (identifier_of_head hs.head_trimLeft) _
  · apply andThen_of_none
    exact padded_of_none (hx.trimLeft_append s) (keyword_append_of_ne hx hs.endsName hk)

theorem binder_of_head {c : Char} (hblank : isBlank c = false) (hletter : isLetter c = false) :
    binder k body (c :: s) = none := by
  apply andThen_of_none
  exact padded_of_none (trimLeft_cons hblank) (keyword_of_head hletter)

theorem binder_of_ne {k' : Extremum} (hne : k' ≠ k) :
    binder k body (k'.keyword ++ ' ' :: s) = none := by
  have hk : IsIdentifier k'.keyword := by cases k' <;> decide
  have hspace : EndsName (' ' :: s) := endsName_cons (by decide)
  have hword : k'.keyword ≠ k.keyword := by
    cases k <;> cases k' <;> first | exact absurd rfl hne | decide
  apply andThen_of_none
  exact padded_of_none (hk.trimLeft_append _) (keyword_append_of_ne hk hspace hword)

theorem firstOf_binder {f : Formula} {r : Reader Formula}
    (h : binder k body (k.keyword ++ ' ' :: s) = some (f, s')) :
    firstOf [binder .least body, binder .greatest body, r] (k.keyword ++ ' ' :: s) =
      some (f, s') := by
  cases k with
  | least => exact firstOf_of_some h
  | greatest => exact (firstOf_of_none (binder_of_ne (by decide))).trans (firstOf_of_some h)

end Binder

end Grammar

end Formula

end ProcessLogic
