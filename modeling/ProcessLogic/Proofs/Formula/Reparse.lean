import ProcessLogic.Proofs.Formula.Obstruction

/-!
# Reading printed formulas back

Printing a legible formula and reading the text gives the formula back. Whatever the grammar reads
is spelt as it should be, with two parts or more in every junction. So only a garbled label can keep
its text from being read back, and where there is one the text is refused.
-/

set_option autoImplicit false

namespace ProcessLogic.Formula

open Text Text.Reader Grammar

/-- Junctions have two parts or more, names are identifiers, and no variable is called like a
constant. -/
abbrev Legible (f : Formula) : Prop := f.Spelt Act.Legible 2

/-- A legible formula is what its text reads as. -/
theorem parse_text {f : Formula} (h : f.Legible) : parse f.text = some f := by
  have hspelt := h.imp (fun _ => Act.Legible.not_garbled) (Nat.le_refl 2)
  exact hspelt.parse_eq

/-- A variable called `mu`, a fixpoint among conjuncts, a label that needs quotes and one that
starts with `true`. -/
def crowded : Formula :=
  .fix .greatest "X" (.junction .any [
    .junction .all [.var "mu", .fix .least "tt" (.modal .any .weak (.except "a \"b\"") (.var "X"))],
    .modal .all .strong (.label "true1") (.junction .any [.const false, .var "X"])])

theorem parse_text_crowded : crowded.Legible ∧ parse crowded.text = some crowded := by
  have hpair : ∀ q f g, f.Legible → g.Legible → (junction q [f, g]).Legible := by
    intro q f g hf hg
    apply Spelt.junction q (by simp)
    simpa using ⟨hf, hg⟩
  have hmu : (var "mu").Legible := .var (by decide) (by decide)
  have hX : (var "X").Legible := .var (by decide) (by decide)
  have hlabel : (Act.label "true1").Legible := by
    intro c s h
    simp only [String.reduceToList, List.cons_append, List.nil_append, List.cons.injEq] at h
    obtain ⟨-, -, -, -, rfl, -⟩ := h
    decide
  have hleast : (fix .least "tt" (.modal .any .weak (.except "a \"b\"") (.var "X"))).Legible :=
    .fix .least (by decide) (.modal .any .weak trivial hX)
  have hbox := Spelt.modal .all .strong hlabel (hpair .any _ _ (.const false) hX)
  have hlegible : crowded.Legible :=
    .fix .greatest (by decide) (hpair .any _ _ (hpair .all _ _ hmu hleast) hbox)
  exact ⟨hlegible, parse_text hlegible⟩

section Grammar

variable {allowed : Act → Prop} {least : Nat} {group part body : Reader Formula}

theorem variableName_yields : variableName.Yields fun x => IsIdentifier x.toList := by
  have hname : identifier.Yields IsIdentifier := fun _ _ _ => identifier_isIdentifier
  refine (hname.map ?_).padded
  intro w hw
  rwa [String.toList_ofList]

/-- A name is read as a variable only after both constants have refused it. -/
theorem variableName_ne_constant {x : String} {s s' : List Char}
    (htrue : constant true ["tt".toList, "true".toList] (trimLeft s) = none)
    (hfalse : constant false ["ff".toList, "false".toList] (trimLeft s) = none)
    (h : variableName (trimLeft s) = some (x, s')) : x ∉ ["tt", "true", "ff", "false"] := by
  obtain ⟨s'', hname, -⟩ := padded_eq_some h
  obtain ⟨w, hread, rfl⟩ := map_eq_some hname
  rw [trimLeft_trimLeft] at hread
  obtain ⟨htext, hends⟩ := identifier_eq_some hread
  have hrefused : ∀ value words, constant value words (trimLeft s) = none → w ∉ words := by
    intro value words hnone hmem
    rw [htext, constant_of_mem (identifier_isIdentifier hread) hends hmem] at hnone
    simp at hnone
  intro hmem
  have hmem' := List.mem_map_of_mem (f := String.toList) hmem
  rw [String.toList_ofList] at hmem'
  rcases List.mem_append.mp (show w ∈ ["tt".toList, "true".toList] ++ _ from hmem') with hw | hw
  · exact hrefused true _ htrue hw
  · exact hrefused false _ hfalse hw

theorem atom_yields (h : group.Yields (Spelt allowed least)) :
    (atom group).Yields (Spelt allowed least) := by
  intro s f s' hread
  obtain ⟨s'', hfirst, -⟩ := padded_eq_some hread
  have hconstant : ∀ value words, (constant value words).Yields (Spelt allowed least) :=
    fun value words => (yields_true _).map fun _ _ => .const value
  rcases firstOf_eq_some hfirst with htrue | ⟨htrue, hfirst⟩
  · exact hconstant _ _ _ _ _ htrue
  rcases firstOf_eq_some hfirst with hfalse | ⟨hfalse, hfirst⟩
  · exact hconstant _ _ _ _ _ hfalse
  rcases firstOf_eq_some hfirst with hgroup | ⟨-, hfirst⟩
  · exact h.between _ _ _ _ _ hgroup
  rw [firstOf_singleton] at hfirst
  obtain ⟨x, hname, rfl⟩ := map_eq_some hfirst
  exact .var (variableName_yields _ _ _ hname) (variableName_ne_constant htrue hfalse hname)

theorem modalRun_yields (h : group.Yields (Spelt (fun _ => True) least)) (n : Nat) :
    (modalRun group n).Yields (Spelt (fun _ => True) least) := by
  induction n with
  | zero => simp [Yields, modalRun]
  | succ n ih =>
    apply yields_firstOf
    intro r hr
    rcases List.mem_append.mp hr with hr | hr
    · obtain ⟨⟨q, strength⟩, -, rfl⟩ := List.mem_map.mp hr
      exact (yields_true _).andThen fun a _ => ih.map fun f hf => .modal q strength trivial hf
    · obtain rfl := List.mem_singleton.mp hr
      exact h

theorem junctionOf_yields (h : part.Yields (Spelt allowed 2)) (q : Quantifier) (n : Nat) :
    (junctionOf q n part).Yields (Spelt allowed 2) := by
  refine (h.separated (connective q) n).map ?_
  rintro fs ⟨hne, hfs⟩
  match fs, hne, hfs with
  | [f], _, hfs => exact hfs f (by simp)
  | f :: g :: fs, _, hfs => exact .junction q (by simp) hfs

theorem binder_yields (h : body.Yields (Spelt allowed least)) (k : Extremum) :
    (binder k body).Yields (Spelt allowed least) :=
  (yields_true _).andThen fun _ _ => variableName_yields.andThen fun _ hx =>
    (yields_true _).andThen fun _ _ => h.map fun _ hf => .fix k hx hf

theorem formula_yields (n : Nat) : (formula n).Yields (Spelt (fun _ => True) 2) := by
  induction n with
  | zero => simp [Yields, formula]
  | succ n ih =>
    have hconjunct := modalRun_yields (atom_yields ih) (n + 1)
    have hjunction := junctionOf_yields (junctionOf_yields hconjunct .all n) .any n
    apply Yields.padded
    apply yields_firstOf
    simpa using ⟨binder_yields ih .least, binder_yields ih .greatest, hjunction⟩

end Grammar

theorem Spelt.of_parse {t : String} {f : Formula} (h : parse t = some f) :
    f.Spelt (fun _ => True) 2 := by
  unfold parse Grammar.read at h
  split at h
  · rename_i g hread
    obtain rfl := Option.some.inj h
    exact formula_yields _ _ _ _ hread
  · simp at h

/-- What has been read is printed as a text that reads as the same formula, unless some modality in
it has a garbled label. Then the printed text is refused. -/
theorem parse_text_of_parse {t : String} {f : Formula} (h : parse t = some f) :
    (parse f.text = some f ↔
      ∀ q strength a g, .modal q strength a g ∈ f.subformulas → ¬ a.Garbled) ∧
    (parse f.text ≠ some f → parse f.text = none) := by
  have hspelt := Spelt.of_parse h
  by_cases hgarbled : f.Garbled
  · have hnone := (hspelt.jams hgarbled).parse_eq
    obtain ⟨q, strength, a, g, hmem, ha⟩ := hgarbled
    refine ⟨⟨?_, fun hclean => absurd ha (hclean q strength a g hmem)⟩, fun _ => hnone⟩
    intro hsome
    simp [hnone] at hsome
  · have hread := (hspelt.of_not_garbled hgarbled).parse_eq
    refine ⟨⟨fun _ q strength a g hmem ha => ?_, fun _ => hread⟩, fun hne => absurd hread hne⟩
    exact hgarbled ⟨q, strength, a, g, hmem, ha⟩

/-- Labels with characters outside ASCII, one of them behind `true` and a space, and a variable that
is called like a binder. -/
def accented : Formula :=
  .modal .all .weak (.except "trueé") (.modal .any .strong (.label "true é")
    (.modal .all .strong (.label "été") (.var "mu")))

theorem parse_text_of_parse_accented :
    parse " [[! trueé]] (< \"true é\" >[\"été\"] mu)" = some accented ∧
      parse accented.text = some accented := by
  have hread : parse " [[! trueé]] (< \"true é\" >[\"été\"] mu)" = some accented := by
    decide +kernel
  refine ⟨hread, (parse_text_of_parse hread).1.mpr ?_⟩
  intro q strength a g hmem
  simp only [accented, subformulas, List.mem_cons, modal.injEq, reduceCtorEq, List.not_mem_nil,
    or_false] at hmem
  rcases hmem with ⟨-, -, rfl, -⟩ | ⟨-, -, rfl, -⟩ | ⟨-, -, rfl, -⟩
  · exact id
  · rintro ⟨hplain, -⟩
    revert hplain
    decide +kernel
  · rintro ⟨-, c, s, hl, -⟩
    simp at hl

/-- The label is printed without its quotes, and what starts with `true` is then no label. -/
theorem parse_text_garbled :
    ∃ f, parse "<\"trueé\">tt" = some f ∧ f.text = "<trueé>tt" ∧ parse f.text = none := by
  refine ⟨.modal .any .strong (.label "trueé") (.const true), ?_⟩
  decide +kernel

end ProcessLogic.Formula
