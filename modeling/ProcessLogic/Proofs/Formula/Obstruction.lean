import ProcessLogic.Proofs.Formula.Reading

/-!
# Texts that cannot be read

The text of a formula with a garbled label is refused. Reading gets as far as the modality with that
label, and what is left over there neither ends the text nor closes a group.
-/

set_option autoImplicit false

namespace ProcessLogic.Formula

open Text Text.Reader Grammar

/-- Some modality has a garbled label. -/
def Garbled (f : Formula) : Prop :=
  ∃ q strength a g, .modal q strength a g ∈ f.subformulas ∧ a.Garbled

theorem garbled_modal_iff {q : Quantifier} {strength : Strength} {a : Act} {f : Formula} :
    (modal q strength a f).Garbled ↔ a.Garbled ∨ f.Garbled := by
  constructor
  · rintro ⟨q', strength', a', g, hmem, ha⟩
    rcases List.mem_cons.mp hmem with heq | hmem
    · obtain ⟨-, -, rfl, -⟩ := modal.inj heq
      exact Or.inl ha
    · exact Or.inr ⟨q', strength', a', g, hmem, ha⟩
  · rintro (ha | ⟨q', strength', a', g, hmem, ha⟩)
    · exact ⟨q, strength, a, f, List.mem_cons_self, ha⟩
    · exact ⟨q', strength', a', g, List.mem_cons_of_mem _ hmem, ha⟩

theorem garbled_junction_iff {q : Quantifier} {fs : List Formula} :
    (junction q fs).Garbled ↔ ∃ f ∈ fs, f.Garbled := by
  constructor
  · rintro ⟨q', strength, a, g, hmem, ha⟩
    rcases List.mem_cons.mp hmem with heq | hmem
    · simp at heq
    · obtain ⟨f, hf, hmem⟩ := mem_subformulasOf.mp hmem
      exact ⟨f, hf, q', strength, a, g, hmem, ha⟩
  · rintro ⟨f, hf, q', strength, a, g, hmem, ha⟩
    have hmem' := mem_subformulasOf.mpr ⟨f, hf, hmem⟩
    exact ⟨q', strength, a, g, List.mem_cons_of_mem _ hmem', ha⟩

theorem garbled_fix_iff {k : Extremum} {x : String} {f : Formula} :
    (fix k x f).Garbled ↔ f.Garbled := by
  simp [Garbled, subformulas]

theorem Spelt.of_not_garbled {allowed : Act → Prop} {least : Nat} {f : Formula}
    (h : f.Spelt allowed least) (hf : ¬ f.Garbled) : f.Spelt (fun a => ¬ a.Garbled) least := by
  induction h with
  | const value => exact .const value
  | var hx hne => exact .var hx hne
  | modal q strength ha hbody ih =>
    rw [garbled_modal_iff, not_or] at hf
    exact .modal q strength hf.1 (ih hf.2)
  | junction q hlength hfs ih =>
    rw [garbled_junction_iff] at hf
    exact .junction q hlength fun f hmem => ih f hmem fun hgarbled => hf ⟨f, hmem, hgarbled⟩
  | fix k hx hbody ih =>
    rw [garbled_fix_iff] at hf
    exact .fix k hx (ih hf)

section Row

variable {q : Quantifier} {part : Reader Formula} {t s : List Char} {f g : Formula}
  {fs : List Formula} {n : Nat}

/-- The text neither ends nor closes a group. -/
def Stuck (s : List Char) : Prop := ∃ c s', s = c :: s' ∧ isBlank c = false ∧ c ≠ ')'

theorem Stuck.trimLeft_eq (h : Stuck s) : trimLeft s = s := by
  obtain ⟨c, s, rfl, hblank, -⟩ := h
  exact trimLeft_cons hblank

theorem stuck_connective (q : Quantifier) (s : List Char) : Stuck (connective q ++ s) := by
  cases q <;> exact ⟨_, _, rfl, by decide, by decide⟩

theorem furtherPart_of_other {q' : Quantifier} (hne : q ≠ q') (s : List Char) :
    furtherPart q part (connective q' ++ s) = none := by
  apply andThen_of_none
  apply padded_of_none (stuck_connective q' s).trimLeft_eq
  apply word_of_ne
  cases q <;> cases q' <;> simp [connective] at hne ⊢

/-- The reader refuses the text or, if it reads disjuncts, stops before one of its conjuncts. -/
structure JamsAsPart (q : Quantifier) (part : Reader Formula) (t : List Char) : Prop where
  opens : Opens t
  stops : ∀ s f rest, part (t ++ s) = some (f, rest) →
    q = .any ∧ ∃ rest', rest = connective .all ++ rest'

theorem JamsAsPart.many_rest (h : JamsAsPart q part t) {rest : List Char}
    (hread : part (t ++ s) = some (f, rest)) : ∃ rest', rest = connective .all ++ rest' ∧
      many (furtherPart q part) n rest = ([], connective .all ++ rest') := by
  obtain ⟨rfl, rest', rfl⟩ := h.stops s f rest hread
  exact ⟨rest', rfl, many_of_none (furtherPart_of_other (by decide) rest')⟩

theorem JamsAsPart.junctionOf_rest (h : JamsAsPart q part t) {rest : List Char}
    (hread : junctionOf q n part (t ++ s) = some (g, rest)) :
    ∃ rest', rest = connective .all ++ rest' := by
  cases hpart : part (t ++ s) with
  | none => simp [junctionOf_of_none hpart] at hread
  | some p =>
    obtain ⟨f, rest₁⟩ := p
    obtain ⟨rest', rfl, hmany⟩ := h.many_rest (n := n) hpart
    rw [junctionOf_of_some hpart, hmany] at hread
    obtain ⟨-, rfl⟩ := Prod.mk.inj (Option.some.inj hread)
    exact ⟨rest', rfl⟩

theorem ends_renderRest (hfs : fs ≠ []) (s : List Char) :
    Ends (q :: looser q) (renderRest q fs ++ s) := by
  obtain ⟨f, fs, rfl⟩ := List.exists_cons_of_ne_nil hfs
  simp only [renderRest, List.append_assoc]
  exact .junction List.mem_cons_self _

/-- Reading the further parts stops at a connective, at the latest before the first part that cannot
be read. -/
theorem many_jams {m : Nat}
    (h : ∀ g ∈ fs, ReadsAsPart q part (g.render q.binding) g ∨
      JamsAsPart q part (g.render q.binding))
    (hjam : ∃ g ∈ fs, JamsAsPart q part (g.render q.binding)) (hm : fs.length ≤ m) :
    ∃ q' rest, (q' = q ∨ q' = .all) ∧
      (many (furtherPart q part) m (trimLeft (renderRest q fs ++ s))).2 =
        connective q' ++ rest := by
  induction fs generalizing m with
  | nil =>
    obtain ⟨g, hg, -⟩ := hjam
    simp at hg
  | cons g fs ih =>
    obtain ⟨m, rfl⟩ : ∃ m', m = m' + 1 := ⟨m - 1, by simp at hm; omega⟩
    simp only [renderRest, List.append_assoc]
    by_cases hg : JamsAsPart q part (g.render q.binding)
    · have hfurther := furtherPart_separator hg.opens q part (renderRest q fs ++ s)
      cases hread : part (g.render q.binding ++ (renderRest q fs ++ s)) with
      | none =>
        rw [many_of_none (hfurther.trans hread), trimLeft_separator]
        exact ⟨q, _, Or.inl rfl, rfl⟩
      | some p =>
        obtain ⟨f, rest⟩ := p
        obtain ⟨rest', rfl, hmany⟩ := hg.many_rest (n := m) hread
        rw [many_of_some (hfurther.trans hread) hmany]
        exact ⟨.all, rest', Or.inr rfl, rfl⟩
    · have hreads := (h g List.mem_cons_self).resolve_right hg
      obtain ⟨g', hg', hjam⟩ := hjam
      have hmem : g' ∈ fs := by
        rcases List.mem_cons.mp hg' with rfl | hmem
        · exact absurd hjam hg
        · exact hmem
      have hfurther := hreads.further (ends_renderRest (List.ne_nil_of_mem hmem) s)
      rw [many_of_some hfurther rfl]
      rw [List.length_cons] at hm
      exact ih (fun g hg => h g (List.mem_cons_of_mem _ hg)) ⟨g', hmem, hjam⟩ (by omega)

theorem junctionOf_jams {rest : List Char}
    (h : ∀ g ∈ f :: fs, ReadsAsPart q part (g.render q.binding) g ∨
      JamsAsPart q part (g.render q.binding))
    (hjam : ∃ g ∈ f :: fs, JamsAsPart q part (g.render q.binding)) (hn : fs.length ≤ n)
    (hread : junctionOf q n part (f.render q.binding ++ (renderRest q fs ++ s)) = some (g, rest)) :
    ∃ q' rest', (q' = q ∨ q' = .all) ∧ rest = connective q' ++ rest' := by
  by_cases hf : JamsAsPart q part (f.render q.binding)
  · obtain ⟨rest', rfl⟩ := hf.junctionOf_rest hread
    exact ⟨.all, rest', Or.inr rfl, rfl⟩
  · have hreads := (h f List.mem_cons_self).resolve_right hf
    obtain ⟨g', hg', hjam⟩ := hjam
    have hmem : g' ∈ fs := by
      rcases List.mem_cons.mp hg' with rfl | hmem
      · exact absurd hjam hf
      · exact hmem
    have hpart := hreads.reads _ (ends_renderRest (List.ne_nil_of_mem hmem) s)
    rw [junctionOf_of_some hpart] at hread
    obtain ⟨-, rfl⟩ := Prod.mk.inj (Option.some.inj hread)
    exact many_jams (fun g hg => h g (List.mem_cons_of_mem _ hg)) ⟨g', hmem, hjam⟩ hn

end Row

section Levels

variable {t : List Char} {f g : Formula} {fs : List Formula}

/-- Standing alone or in parentheses the text is not read to its end. -/
def GetsStuck (t : List Char) : Prop :=
  ∀ n s f rest, Ends [] s → t.length ≤ n → formula (n + 1) (t ++ s) = some (f, rest) → Stuck rest

theorem getsStuck_of_opens (ht : Opens t)
    (h : ∀ n s f rest, t.length ≤ n →
      junctionOf .any n (junctionOf .all n (modalRun (atom (formula n)) (n + 1))) (t ++ s) =
        some (f, rest) → ∃ q rest', rest = connective q ++ rest') : GetsStuck t := by
  intro n s f rest hs hn hread
  rw [formula_of_opens ht hs] at hread
  obtain ⟨rest', hjunction, rfl⟩ := padded_eq_some hread
  rw [ht.trimLeft_append] at hjunction
  obtain ⟨q, rest'', rfl⟩ := h n s f rest' hn hjunction
  rw [(stuck_connective q rest'').trimLeft_eq]
  exact stuck_connective q rest''

theorem GetsStuck.group (h : GetsStuck t) (n m : Nat) (s : List Char)
    (hn : ('(' :: t ++ [')']).length ≤ n) :
    modalRun (atom (formula n)) m ('(' :: t ++ [')'] ++ s) = none := by
  simp only [List.length_append, List.length_cons, List.length_nil] at hn
  obtain ⟨n, rfl⟩ : ∃ n', n = n' + 1 := ⟨n - 1, by omega⟩
  cases m with
  | zero => rfl
  | succ m =>
    simp only [List.cons_append, List.append_assoc, List.nil_append]
    rw [modalRun_bottom (by decide) (by decide)]
    apply atom_group_none
    cases hread : formula (n + 1) (t ++ ')' :: s) with
    | none => exact Or.inl rfl
    | some p =>
      obtain ⟨f, rest⟩ := p
      obtain ⟨c, rest, rfl, -, hc⟩ := h n _ f rest (.group s) (by omega) hread
      exact Or.inr ⟨f, _, rfl, word_of_head hc⟩

/-- At no place of a larger formula is the formula read to its end. -/
structure Jams (f : Formula) : Prop where
  tightly : ∀ n m s, (f.render .modal).length ≤ n →
    modalRun (atom (formula n)) m (f.render .modal ++ s) = none
  asDisjunct : ∀ n, (f.render .or).length ≤ n →
    JamsAsPart .any (junctionOf .all n (modalRun (atom (formula n)) (n + 1))) (f.render .or)
  alone : GetsStuck (f.render .outer)

/-- A conjunct that cannot be read is refused, and so is a disjunct that starts with it. -/
theorem Jams.of_tightly (hopens : Opens (f.render .modal)) (hor : f.render .or = f.render .modal)
    (h : ∀ n m s, (f.render .modal).length ≤ n →
      modalRun (atom (formula n)) m (f.render .modal ++ s) = none)
    (halone : GetsStuck (f.render .outer)) : Jams f := by
  refine ⟨h, ?_, halone⟩
  intro n hn
  rw [hor] at hn ⊢
  refine ⟨hopens, ?_⟩
  intro s g rest hread
  simp [junctionOf_of_none (h n (n + 1) s hn)] at hread

theorem getsStuck_of_tightly (ht : Opens t)
    (h : ∀ n m s, t.length ≤ n → modalRun (atom (formula n)) m (t ++ s) = none) :
    GetsStuck t := by
  apply getsStuck_of_opens ht
  intro n s f rest hn hread
  simp [junctionOf_of_none (junctionOf_of_none (h n (n + 1) s hn))] at hread

theorem furtherPart_of_name {x : List Char} (hx : IsIdentifier x) (q : Quantifier)
    (part : Reader Formula) (s : List Char) : furtherPart q part (x ++ s) = none := by
  apply andThen_of_none
  apply padded_of_none (hx.trimLeft_append s)
  cases x with
  | nil => exact hx.elim
  | cons c x =>
    have hne : ∀ d, isLetter d = false → c ≠ d := by
      rintro d hd rfl
      simp [hx.1] at hd
    cases q <;> exact word_of_head (hne _ (by decide))

/-- Where a fixpoint cannot be read, its keyword is taken for a variable, and its name is left
over. -/
theorem junctionOf_keyword (k : Extremum) {x : List Char} (hx : IsIdentifier x) (n m : Nat)
    (group : Reader Formula) (s : List Char) :
    junctionOf .any n (junctionOf .all n (modalRun (atom group) (m + 1)))
        (k.keyword ++ ' ' :: (x ++ s)) =
      some (.var (String.ofList k.keyword), x ++ s) := by
  have hname : IsIdentifier (String.ofList k.keyword).toList := by cases k <;> decide
  have hspace : EndsName (' ' :: (x ++ s)) := endsName_cons (by decide)
  have hatom : atom group ((String.ofList k.keyword).toList ++ ' ' :: (x ++ s)) = _ :=
    atom_var hname (by cases k <;> decide) hspace
  rw [trimLeft_space (hx.trimLeft_append s), String.toList_ofList] at hatom
  have hrun : modalRun (atom group) (m + 1) (k.keyword ++ ' ' :: (x ++ s)) =
      some (.var (String.ofList k.keyword), x ++ s) := by
    cases k <;> exact (modalRun_bottom (by decide) (by decide)).trans hatom
  have hall := junctionOf_of_some (q := .all) (n := n) hrun
  rw [many_of_none (furtherPart_of_name hx _ _ s)] at hall
  rw [junctionOf_of_some hall, many_of_none (furtherPart_of_name hx _ _ s)]
  rfl

theorem GetsStuck.fix (k : Extremum) {x : String} (hx : IsIdentifier x.toList)
    (ht : ∀ s, trimLeft (t ++ s) = t ++ s) (h : GetsStuck t) :
    GetsStuck (k.keyword ++ ' ' :: x.toList ++ ". ".toList ++ t) := by
  intro n s f rest hs hn hread
  have htext := fix_append k x.toList t s
  have hlength := congrArg List.length htext
  simp only [List.length_append, List.length_cons] at hlength hn
  obtain ⟨n, rfl⟩ : ∃ n', n = n' + 1 := ⟨n - 1, by omega⟩
  have hkeyword : IsIdentifier k.keyword := by cases k <;> decide
  have hbinder : binder k (formula (n + 1)) _ = _ := binder_render hx (ht s)
  rw [htext, formula] at hread
  obtain ⟨rest', hfirst, rfl⟩ := padded_eq_some hread
  rw [hkeyword.trimLeft_append] at hfirst
  have hstuck : Stuck rest' := by
    cases hbody : formula (n + 1) (t ++ s) with
    | some p =>
      obtain ⟨g, rest''⟩ := p
      have hfix := hbinder.trans (map_of_some hbody _)
      obtain ⟨-, rfl⟩ := Prod.mk.inj (Option.some.inj ((firstOf_binder hfix).symm.trans hfirst))
      exact h n s g rest'' hs (by omega) hbody
    | none =>
      have hfix := hbinder.trans (map_of_none hbody _)
      have hnone : ∀ k', binder k' (formula (n + 1))
          (k.keyword ++ ' ' :: (x.toList ++ '.' :: ' ' :: (t ++ s))) = none := by
        intro k'
        by_cases hk : k = k'
        · subst hk
          exact hfix
        · exact binder_of_ne hk
      rw [firstOf_of_none (hnone _), firstOf_of_none (hnone _), firstOf_singleton,
        junctionOf_keyword k hx] at hfirst
      obtain ⟨-, rfl⟩ := Prod.mk.inj (Option.some.inj hfirst)
      obtain ⟨c, x', hcons, hc⟩ := hx.exists_cons
      exact ⟨c, _, by rw [hcons]; rfl, hc.isBlank_eq_false, hc.ne (by decide)⟩
  rwa [hstuck.trimLeft_eq]

end Levels

section Printed

variable {q : Quantifier} {allowed : Act → Prop} {f g : Formula} {fs : List Formula} {n : Nat}

theorem render_and (f : Formula) : f.render .and = f.render .modal := by
  cases f with
  | junction q fs =>
    match q, fs with
    | _, [] => simp [render]
    | _, [f] => simp [render]
    | .any, f :: g :: fs => simp [render, Quantifier.binding, Binding.level]
    | .all, f :: g :: fs => simp [render, Quantifier.binding, Binding.level]
  | fix k x f => simp [render, Binding.level]
  | _ => simp [render]

theorem length_renderRest (q : Quantifier) (fs : List Formula) :
    fs.length ≤ (renderRest q fs).length := by
  have hseparator : 1 ≤ q.separator.length := by cases q <;> decide
  induction fs with
  | nil => exact Nat.zero_le _
  | cons f fs ih =>
    simp only [renderRest, List.length_append, List.length_cons]
    omega

theorem length_render_le (hg : g ∈ f :: fs) :
    (g.render q.binding).length ≤ (f.render q.binding ++ renderRest q fs).length := by
  induction fs generalizing f with
  | nil =>
    obtain rfl := List.mem_singleton.mp hg
    simp
  | cons f' fs ih =>
    rcases List.mem_cons.mp hg with rfl | hg
    · simp
    · have hle := ih hg
      simp only [renderRest, List.length_append] at hle ⊢
      omega

/-- What reads the parts of a junction. -/
def partReader (n : Nat) : Quantifier → Reader Formula
  | .all => modalRun (atom (formula n)) (n + 1)
  | .any => junctionOf .all n (modalRun (atom (formula n)) (n + 1))

theorem Spelt.readsAsPart (h : f.Spelt allowed 2) (hf : ¬ f.Garbled)
    (hn : (f.render q.binding).length ≤ n) :
    ReadsAsPart q (partReader n q) (f.render q.binding) f := by
  have hread := (h.of_not_garbled hf).readsAs.conjuncts
  cases q with
  | all =>
    have hconjunct := hread .and (by decide)
    rw [conjuncts_and, h.conjuncts_eq.1] at hconjunct
    exact hconjunct.of_singleton.asPart hn
  | any =>
    have hdisjunct : Disjunct (f.render .or) f.reading := ⟨_, hread .or (Nat.le_refl _), rfl⟩
    rw [h.conjuncts_eq.2] at hdisjunct
    exact hdisjunct.asPart hn

theorem Jams.asPart (h : Jams f) (hopens : Opens (f.render q.binding))
    (hn : (f.render q.binding).length ≤ n) :
    JamsAsPart q (partReader n q) (f.render q.binding) := by
  cases q with
  | any => exact h.asDisjunct n hn
  | all =>
    refine ⟨hopens, ?_⟩
    intro s g rest hread
    have hnone := h.tightly n (n + 1) s
    rw [← render_and] at hnone
    rw [partReader, Quantifier.binding, hnone hn] at hread
    simp at hread

theorem junctionOf_garbled {s rest : List Char} {f' : Formula}
    (h : ∀ g ∈ f :: fs, g.Spelt allowed 2) (ih : ∀ g ∈ f :: fs, g.Garbled → Jams g)
    (hgarbled : ∃ g ∈ f :: fs, g.Garbled)
    (hn : (f.render q.binding ++ renderRest q fs).length ≤ n)
    (hread : junctionOf q n (partReader n q) (f.render q.binding ++ renderRest q fs ++ s) =
      some (f', rest)) : ∃ q' rest', (q' = q ∨ q' = .all) ∧ rest = connective q' ++ rest' := by
  have hlength : ∀ g ∈ f :: fs, (g.render q.binding).length ≤ n :=
    fun g hg => Nat.le_trans (length_render_le hg) hn
  have hjams : ∀ g ∈ f :: fs, g.Garbled →
      JamsAsPart q (partReader n q) (g.render q.binding) := by
    intro g hg hgarbled
    have hopens : Opens (g.render q.binding) :=
      (h g hg).opens (by cases q <;> simp [Quantifier.binding])
    exact (ih g hg hgarbled).asPart hopens (hlength g hg)
  have hrest := length_renderRest q fs
  rw [List.length_append] at hn
  rw [List.append_assoc] at hread
  refine junctionOf_jams ?_ ?_ (by omega) hread
  · intro g hg
    by_cases hgarbled : g.Garbled
    · exact Or.inr (hjams g hg hgarbled)
    · exact Or.inl ((h g hg).readsAsPart hgarbled (hlength g hg))
  · obtain ⟨g, hg, hgarbled⟩ := hgarbled
    exact ⟨g, hg, hjams g hg hgarbled⟩

theorem Jams.modal (q : Quantifier) (strength : Strength) {a : Act} (h : f.Spelt allowed 2)
    (hjam : a.Garbled ∨ Jams f) : Jams (.modal q strength a f) := by
  have hrender : ∀ context, (Formula.modal q strength a f).render context =
      (Formula.modal q strength a f).render .modal := by simp [render]
  have hopens : Opens ((Formula.modal q strength a f).render .modal) := by
    rw [render]
    cases q <;> cases strength <;> exact opens_of_head (by decide) (by decide)
  have hnone : ∀ n m s, ((Formula.modal q strength a f).render .modal).length ≤ n →
      modalRun (atom (formula n)) m ((Formula.modal q strength a f).render .modal ++ s) = none := by
    intro n m s hn
    simp only [render, List.length_append] at hn
    simp only [render, List.append_assoc]
    rcases hjam with ha | hf
    · exact modalRun_garbled ha
    · apply modalRun_of_body ((h.opens (by simp)).trimLeft_append s)
      exact fun m => hf.tightly n m s (by omega)
  apply Jams.of_tightly hopens (hrender .or) hnone
  rw [hrender .outer]
  exact getsStuck_of_tightly hopens hnone

theorem Jams.junction (q : Quantifier) (h : ∀ g' ∈ f :: g :: fs, g'.Spelt allowed 2)
    (ih : ∀ g' ∈ f :: g :: fs, g'.Garbled → Jams g') (hgarbled : ∃ g' ∈ f :: g :: fs, g'.Garbled) :
    Jams (.junction q (f :: g :: fs)) := by
  have hspelt : (Formula.junction q (f :: g :: fs)).Spelt allowed 2 := .junction q (by simp) h
  have houter := render_junction_of_lt .outer q f g fs (by cases q <;> decide)
  have hopens : Opens ((Formula.junction q (f :: g :: fs)).render .outer) :=
    hspelt.opens (by simp)
  cases q with
  | all =>
    have hor := render_junction_of_lt .or .all f g fs (by decide)
    have hdisjunct : ∀ n, ((Formula.junction .all (f :: g :: fs)).render .or).length ≤ n →
        JamsAsPart .any (partReader n .any)
          ((Formula.junction .all (f :: g :: fs)).render .or) := by
      intro n hn
      rw [hor] at hn ⊢
      rw [houter] at hopens
      refine ⟨hopens, ?_⟩
      intro s f' rest hread
      obtain ⟨q', rest', hq', rfl⟩ := junctionOf_garbled (q := .all) h ih hgarbled hn hread
      obtain rfl : q' = .all := by simpa using hq'
      exact ⟨rfl, rest', rfl⟩
    have hstuck : GetsStuck ((Formula.junction .all (f :: g :: fs)).render .outer) := by
      apply getsStuck_of_opens hopens
      intro n s f' rest hn hread
      rw [houter, ← hor] at hn hread
      obtain ⟨rest', rfl⟩ := (hdisjunct n hn).junctionOf_rest hread
      exact ⟨.all, rest', rfl⟩
    refine ⟨?_, hdisjunct, hstuck⟩
    rw [render_junction_of_le .modal .all f g fs (by decide)]
    rw [houter] at hstuck
    exact hstuck.group
  | any =>
    have hstuck : GetsStuck ((Formula.junction .any (f :: g :: fs)).render .outer) := by
      apply getsStuck_of_opens hopens
      intro n s f' rest hn hread
      rw [houter] at hn hread
      obtain ⟨q', rest', -, rfl⟩ := junctionOf_garbled (q := .any) h ih hgarbled hn hread
      exact ⟨q', rest', rfl⟩
    have hmodal := render_junction_of_le .modal .any f g fs (by decide)
    have hor := render_junction_of_le .or .any f g fs (by decide)
    refine Jams.of_tightly (hspelt.opens (by simp)) (hor.trans hmodal.symm) ?_ hstuck
    rw [hmodal]
    rw [houter] at hstuck
    exact hstuck.group

theorem Jams.fix (k : Extremum) {x : String} (hx : IsIdentifier x.toList)
    (h : f.Spelt allowed 2) (ih : Jams f) : Jams (.fix k x f) := by
  have hspelt : (Formula.fix k x f).Spelt allowed 2 := .fix k hx h
  have hmodal : (Formula.fix k x f).render .modal =
      '(' :: (Formula.fix k x f).render .outer ++ [')'] := render_fix_of_le k x f (by decide)
  have hstuck : GetsStuck ((Formula.fix k x f).render .outer) := by
    rw [render_fix_outer]
    exact ih.alone.fix k hx h.trimLeft_outer
  refine Jams.of_tightly (hspelt.opens (by simp)) ?_ ?_ hstuck
  · exact (render_fix_of_le k x f (by decide)).trans hmodal.symm
  · rw [hmodal]
    exact hstuck.group

theorem Spelt.jams (h : f.Spelt allowed 2) (hgarbled : f.Garbled) : Jams f := by
  induction h with
  | const value => simp [Garbled, subformulas] at hgarbled
  | var hx hne => simp [Garbled, subformulas] at hgarbled
  | modal q strength ha hf ih =>
    exact .modal q strength hf ((garbled_modal_iff.mp hgarbled).imp_right ih)
  | @junction q fs hlength hfs ih =>
    match fs, hlength with
    | f :: g :: fs, _ => exact .junction q hfs ih (garbled_junction_iff.mp hgarbled)
  | fix k hx hf ih => exact .fix k hx hf (ih (garbled_fix_iff.mp hgarbled))

theorem Jams.parse_eq (h : Jams f) : parse f.text = none := by
  have hstuck := h.alone (f.render .outer).length []
  rw [List.append_nil] at hstuck
  unfold parse text Grammar.read
  rw [String.toList_ofList]
  cases hread : formula ((f.render .outer).length + 1) (f.render .outer) with
  | none => rfl
  | some p =>
    obtain ⟨g, rest⟩ := p
    obtain ⟨c, rest, rfl, -⟩ := hstuck g rest .nil (Nat.le_refl _) hread
    rfl

end Printed

end ProcessLogic.Formula
