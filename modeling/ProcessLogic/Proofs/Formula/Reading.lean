import ProcessLogic.Proofs.Formula.Grammar

/-!
# What printed formulas read as

The text of a formula is a row of conjuncts, or of disjuncts that are such rows, and each of them is
read up to the connective behind it. A junction of one part has no parentheses of its own. So the
part can hand several conjuncts to a context that has room for one, and what is read is not always
the formula that was printed. It is the one that `reading` gives.
-/

set_option autoImplicit false

namespace ProcessLogic.Formula

open Text Text.Reader Grammar

/-- Names are identifiers, no variable is called like a constant, actions are allowed, and junctions
have at least the given number of parts. -/
inductive Spelt (allowed : Act → Prop) (least : Nat) : Formula → Prop where
  | const (value : Bool) : Spelt allowed least (.const value)
  | var {x : String} (hx : IsIdentifier x.toList) (hne : x ∉ ["tt", "true", "ff", "false"]) :
    Spelt allowed least (.var x)
  | modal (q : Quantifier) (strength : Strength) {a : Act} {f : Formula} (ha : allowed a)
    (hf : Spelt allowed least f) : Spelt allowed least (.modal q strength a f)
  | junction (q : Quantifier) {fs : List Formula} (hlength : least ≤ fs.length)
    (hfs : ∀ f ∈ fs, Spelt allowed least f) : Spelt allowed least (.junction q fs)
  | fix (k : Extremum) {x : String} {f : Formula} (hx : IsIdentifier x.toList)
    (hf : Spelt allowed least f) : Spelt allowed least (.fix k x f)

theorem Spelt.imp {allowed allowed' : Act → Prop} {least least' : Nat} {f : Formula}
    (h : f.Spelt allowed least) (ha : ∀ a, allowed a → allowed' a) (hle : least' ≤ least) :
    f.Spelt allowed' least' := by
  induction h with
  | const value => exact .const value
  | var hx hne => exact .var hx hne
  | modal q strength hallowed hf ih => exact .modal q strength (ha _ hallowed) ih
  | junction q hlength hfs ih => exact .junction q (Nat.le_trans hle hlength) ih
  | fix k hx hf ih => exact .fix k hx ih

mutual

/-- The formula and all that it is made of. -/
def subformulas : Formula → List Formula
  | .const value => [.const value]
  | .var x => [.var x]
  | .modal q strength a f => .modal q strength a f :: f.subformulas
  | .junction q fs => .junction q fs :: subformulasOf fs
  | .fix k x f => .fix k x f :: f.subformulas

def subformulasOf : List Formula → List Formula
  | [] => []
  | f :: fs => f.subformulas ++ subformulasOf fs

end

theorem mem_subformulasOf {g : Formula} {fs : List Formula} :
    g ∈ subformulasOf fs ↔ ∃ f ∈ fs, g ∈ f.subformulas := by
  induction fs with
  | nil => simp [subformulasOf]
  | cons f fs ih => simp [subformulasOf, ih]

theorem Spelt.of_mem_subformulas {allowed : Act → Prop} {least : Nat} {f g : Formula}
    (h : f.Spelt allowed least) (hg : g ∈ f.subformulas) : g.Spelt allowed least := by
  induction h with
  | const value =>
    obtain rfl := List.mem_singleton.mp hg
    exact .const value
  | var hx hne =>
    obtain rfl := List.mem_singleton.mp hg
    exact .var hx hne
  | modal q strength ha hf ih =>
    rcases List.mem_cons.mp hg with rfl | hg
    · exact .modal q strength ha hf
    · exact ih hg
  | junction q hlength hfs ih =>
    rcases List.mem_cons.mp hg with rfl | hg
    · exact .junction q hlength hfs
    · obtain ⟨f, hf, hg⟩ := mem_subformulasOf.mp hg
      exact ih f hf hg
  | fix k hx hf ih =>
    rcases List.mem_cons.mp hg with rfl | hg
    · exact .fix k hx hf
    · exact ih hg

mutual

/-- What the conjuncts in the text of a formula are read as, in a context that binds at least as
tightly as a disjunction. A modality takes the first conjunct of its body. -/
def conjuncts (context : Binding) : Formula → List Formula
  | .const value => [.const value]
  | .var x => [.var x]
  | .modal q strength a f => (f.conjuncts .modal).modifyHead (.modal q strength a)
  | .junction q fs =>
    match fs with
    | [] => [.const (q = .all)]
    | [f] => f.conjuncts q.binding
    | f :: g :: fs =>
      match q with
      | .any => [.junction .any (join .all (f.conjuncts .or) :: readings (g :: fs))]
      | .all =>
        if Binding.and.level ≤ context.level then
          [.junction .all (f.conjuncts .and ++ conjunctsOf (g :: fs))]
        else f.conjuncts .and ++ conjunctsOf (g :: fs)
  | .fix k x f => [.fix k x (join .all (f.conjuncts .or))]

def conjunctsOf : List Formula → List Formula
  | [] => []
  | f :: fs => f.conjuncts .and ++ conjunctsOf fs

def readings : List Formula → List Formula
  | [] => []
  | f :: fs => join .all (f.conjuncts .or) :: readings fs

end

/-- What the text of a formula is read as. -/
def reading (f : Formula) : Formula := join .all (f.conjuncts .or)

theorem conjunctsOf_eq (fs : List Formula) : conjunctsOf fs = fs.flatMap (conjuncts .and) := by
  induction fs with
  | nil => rfl
  | cons f fs ih => simp [conjunctsOf, ih]

theorem readings_eq (fs : List Formula) : readings fs = fs.map reading := by
  induction fs with
  | nil => rfl
  | cons f fs ih => simp [readings, reading, ih]

theorem conjuncts_any (context : Binding) (f g : Formula) (fs : List Formula) :
    (junction .any (f :: g :: fs)).conjuncts context =
      [.junction .any ((f :: g :: fs).map reading)] := by
  simp [conjuncts, readings_eq, reading]

theorem conjuncts_all_of_lt {context : Binding} (h : context.level < Binding.and.level)
    (f g : Formula) (fs : List Formula) :
    (junction .all (f :: g :: fs)).conjuncts context =
      (f :: g :: fs).flatMap (conjuncts .and) := by
  simp [conjuncts, conjunctsOf_eq, Nat.not_le.mpr h]

theorem conjuncts_all_of_le {context : Binding} (h : Binding.and.level ≤ context.level)
    (f g : Formula) (fs : List Formula) :
    (junction .all (f :: g :: fs)).conjuncts context =
      [.junction .all ((f :: g :: fs).flatMap (conjuncts .and))] := by
  simp [conjuncts, conjunctsOf_eq, h]

/-- Texts behind each other, with a connective between them, and what each stands for. -/
inductive Joined (q : Quantifier) (R : List Char → Formula → Prop) :
    List Char → List Formula → Prop where
  | single {t : List Char} {f : Formula} (h : R t f) : Joined q R t [f]
  | cons {t t' : List Char} {f : Formula} {fs : List Formula} (h : R t f)
    (hrest : Joined q R t' fs) :
    Joined q R (t ++ (q.separator ++ t')) (f :: fs)

namespace Joined

variable {q : Quantifier} {R R' : List Char → Formula → Prop} {t t' : List Char}
  {f : Formula} {fs gs : List Formula}

theorem append (h : Joined q R t fs) (h' : Joined q R t' gs) :
    Joined q R (t ++ (q.separator ++ t')) (fs ++ gs) := by
  induction h with
  | single h => exact .cons h h'
  | cons h hrest ih =>
    simp only [List.append_assoc, List.cons_append]
    exact .cons h ih

theorem imp (h : Joined q R t fs) (himp : ∀ t' f, R t' f → t'.length ≤ t.length → R' t' f) :
    Joined q R' t fs := by
  induction h with
  | single h => exact .single (himp _ _ h (Nat.le_refl _))
  | cons h hrest ih =>
    simp only [List.length_append] at himp
    apply Joined.cons (himp _ _ h (by omega))
    exact ih fun t' f ht' hlength => himp t' f ht' (by omega)

theorem ne_nil (h : Joined q R t fs) : fs ≠ [] := by
  cases h <;> simp

theorem of_singleton (h : Joined q R t [f]) : R t f := by
  cases h with
  | single h => exact h
  | cons h hrest => exact absurd rfl hrest.ne_nil

theorem length_le (h : Joined q R t fs) : fs.length ≤ t.length + 1 := by
  have hseparator : 1 ≤ q.separator.length := by cases q <;> decide
  induction h with
  | single h => simp
  | cons h hrest ih =>
    simp only [List.length_append, List.length_cons]
    omega

/-- The printed parts of a junction, given the rows that each of them is printed as. -/
theorem render {parts : Formula → List Formula} (h : ∀ g ∈ f :: fs,
      Joined q R (g.render q.binding) (parts g)) :
    Joined q R (f.render q.binding ++ renderRest q fs) ((f :: fs).flatMap parts) := by
  induction fs generalizing f with
  | nil => simpa [renderRest] using h f (by simp)
  | cons g fs ih =>
    have hrest := ih fun g' hg' => h g' (List.mem_cons_of_mem f hg')
    simp only [renderRest, List.flatMap_cons, List.append_assoc] at hrest ⊢
    exact (h f (by simp)).append hrest

end Joined

section Row

variable {q : Quantifier} {part : Reader Formula} {t s : List Char} {f : Formula}
  {fs : List Formula} {n : Nat}

/-- Connectives that end a whole junction. -/
def looser : Quantifier → List Quantifier
  | .all => [.any]
  | .any => []

/-- A further part of a junction, behind its connective. -/
def furtherPart (q : Quantifier) (part : Reader Formula) : Reader Formula :=
  (padded (word (connective q))).andThen fun _ => part

/-- The text does not start with a blank, nor with a binder. -/
structure Opens (t : List Char) : Prop where
  starts : ∃ c s, t = c :: s ∧ isBlank c = false
  noBinder : ∀ qs s, Ends qs s → ∀ k body, binder k body (t ++ s) = none

theorem Opens.trimLeft_append (h : Opens t) (s : List Char) : trimLeft (t ++ s) = t ++ s := by
  obtain ⟨c, t, rfl, hc⟩ := h.starts
  exact trimLeft_cons hc

theorem Opens.append_separator (h : Opens t) (q : Quantifier) (s : List Char) :
    Opens (t ++ (q.separator ++ s)) := by
  have hbinder := h.noBinder
  obtain ⟨c, t, rfl, hc⟩ := h.starts
  refine ⟨⟨c, _, rfl, hc⟩, ?_⟩
  intro qs s' hs' k body
  simp only [List.append_assoc]
  exact hbinder [q] _ (.junction (by simp) _) k body

theorem Joined.opens {R : List Char → Formula → Prop} (h : Joined q R t fs)
    (hR : ∀ t f, R t f → Opens t) : Opens t := by
  cases h with
  | single h => exact hR _ _ h
  | cons h hrest => exact (hR _ _ h).append_separator q _

theorem opens_of_head {c : Char} (hblank : isBlank c = false) (hletter : isLetter c = false) :
    Opens (c :: t) :=
  ⟨⟨c, t, rfl, hblank⟩, fun _ _ _ _ _ => binder_of_head hblank hletter⟩

theorem opens_of_name (ht : IsIdentifier t) : Opens t := by
  obtain ⟨c, t', rfl, hc⟩ := ht.exists_cons
  exact ⟨⟨c, t', rfl, hc.isBlank_eq_false⟩, fun _ _ hs _ _ => binder_of_name ht hs⟩

/-- The reader takes the text as the formula, when what follows ends a part. -/
structure ReadsAsPart (q : Quantifier) (part : Reader Formula) (t : List Char) (f : Formula) :
    Prop where
  opens : Opens t
  reads : ∀ s, Ends (q :: looser q) s → part (t ++ s) = some (f, trimLeft s)

theorem furtherPart_separator (h : Opens t) (q : Quantifier) (part : Reader Formula)
    (s : List Char) : furtherPart q part (trimLeft (q.separator ++ (t ++ s))) = part (t ++ s) := by
  have hstart : trimLeft (connective q ++ ' ' :: (t ++ s)) = connective q ++ ' ' :: (t ++ s) := by
    rw [← trimLeft_separator, trimLeft_trimLeft]
  have hword := padded_of_some hstart (word_append _ _)
  rw [trimLeft_space (h.trimLeft_append s)] at hword
  rw [trimLeft_separator]
  exact andThen_of_some hword _

theorem ReadsAsPart.further (h : ReadsAsPart q part t f) (hs : Ends (q :: looser q) s) :
    furtherPart q part (trimLeft (q.separator ++ (t ++ s))) = some (f, trimLeft s) :=
  (furtherPart_separator h.opens q part s).trans (h.reads s hs)

/-- A row is read part by part, and reading goes on behind it. -/
theorem many_joined (h : Joined q (ReadsAsPart q part) t fs) (hs : Ends (q :: looser q) s)
    (m : Nat) : many (furtherPart q part) (fs.length + m) (trimLeft (q.separator ++ (t ++ s))) =
      (fs ++ (many (furtherPart q part) m (trimLeft s)).1,
        (many (furtherPart q part) m (trimLeft s)).2) := by
  induction h with
  | single h =>
    rw [List.length_singleton, Nat.add_comm]
    exact many_of_some (h.further hs) rfl
  | cons h hrest ih =>
    simp only [List.append_assoc] at ih ⊢
    rw [List.length_cons, Nat.add_right_comm]
    exact many_of_some (h.further (.junction (by simp) _)) ih

theorem junctionOf_of_some {s' : List Char} (h : part s = some (f, s')) :
    junctionOf q n part s = some (join q (f :: (many (furtherPart q part) n s').1),
      (many (furtherPart q part) n s').2) :=
  map_of_some (separated_of_some h rfl) _

theorem junctionOf_of_none (h : part s = none) : junctionOf q n part s = none :=
  map_of_none (andThen_of_none h _) _

theorem junctionOf_joined (h : Joined q (ReadsAsPart q part) t fs) (hs : Ends (looser q) s)
    (hn : fs.length ≤ n + 1) : junctionOf q n part (t ++ s) = some (join q fs, trimLeft s) := by
  have hq : q ∉ looser q := by cases q <;> decide
  have hstop : furtherPart q part (trimLeft s) = none :=
    andThen_of_none (hs.connective_eq_none hq) _
  cases h with
  | single h =>
    rw [junctionOf_of_some (h.reads s hs.cons), many_of_none hstop]
  | @cons t t' f fs h hrest =>
    obtain ⟨m, rfl⟩ : ∃ m, n = fs.length + m := ⟨n - fs.length, by simp at hn; omega⟩
    have hpart := h.reads (q.separator ++ (t' ++ s)) (.junction (by simp) _)
    have hmany := many_joined hrest hs.cons m
    rw [many_of_none hstop, List.append_nil] at hmany
    simp only [List.append_assoc]
    rw [junctionOf_of_some hpart, hmany]

end Row

section Levels

variable {t : List Char} {f : Formula} {fs : List Formula}

/-- The text of one conjunct, which a modality in front of it takes whole. -/
structure Conjunct (t : List Char) (f : Formula) : Prop where
  opens : Opens t
  reads : ∀ n m s, Ends [.all, .any] s → t.length ≤ n → t.length ≤ m →
    modalRun (atom (formula n)) m (t ++ s) = some (f, trimLeft s)

/-- The text of one disjunct: a row of conjuncts. -/
def Disjunct (t : List Char) (f : Formula) : Prop :=
  ∃ fs, Joined .all Conjunct t fs ∧ join .all fs = f

/-- Standing alone or in parentheses the text is read as the formula. -/
def ReadsAlone (t : List Char) (f : Formula) : Prop :=
  ∀ n s, Ends [] s → t.length ≤ n → formula (n + 1) (t ++ s) = some (f, trimLeft s)

theorem Conjunct.asPart {n : Nat} (h : Conjunct t f) (hn : t.length ≤ n) :
    ReadsAsPart .all (modalRun (atom (formula n)) (n + 1)) t f :=
  ⟨h.opens, fun s hs => h.reads n (n + 1) s hs hn (by omega)⟩

theorem Disjunct.opens (h : Disjunct t f) : Opens t := by
  obtain ⟨fs, hjoined, -⟩ := h
  exact hjoined.opens fun _ _ => Conjunct.opens

theorem Disjunct.asPart {n : Nat} (h : Disjunct t f) (hn : t.length ≤ n) :
    ReadsAsPart .any (junctionOf .all n (modalRun (atom (formula n)) (n + 1))) t f := by
  refine ⟨h.opens, ?_⟩
  intro s hs
  obtain ⟨fs, hjoined, rfl⟩ := h
  have hparts := hjoined.imp fun t' f ht' hlength => Conjunct.asPart (n := n) ht' (by omega)
  have hlength := hjoined.length_le
  exact junctionOf_joined hparts hs (by omega)

theorem formula_of_opens (h : Opens t) {qs : List Quantifier} {s : List Char} (hs : Ends qs s)
    (n : Nat) : formula (n + 1) (t ++ s) =
      padded (junctionOf .any n (junctionOf .all n (modalRun (atom (formula n)) (n + 1))))
        (t ++ s) := by
  simp only [formula, padded, h.trimLeft_append]
  rw [firstOf_of_none (h.noBinder qs s hs _ _), firstOf_of_none (h.noBinder qs s hs _ _),
    firstOf_singleton]

theorem Joined.readsAlone (h : Joined .any Disjunct t fs) : ReadsAlone t (join .any fs) := by
  intro n s hs hn
  have hopens := h.opens fun _ _ => Disjunct.opens
  have hparts := h.imp fun t' f ht' hlength => Disjunct.asPart (n := n) ht' (by omega)
  have hlength := h.length_le
  have hread := junctionOf_joined (n := n) hparts hs (by omega)
  rw [formula_of_opens hopens hs, ← trimLeft_trimLeft s]
  exact padded_of_some (hopens.trimLeft_append s) hread

theorem Disjunct.readsAlone (h : Disjunct t f) : ReadsAlone t f :=
  Joined.readsAlone (.single h)

/-- What is printed in parentheses is read as a group. -/
theorem ReadsAlone.group (h : ReadsAlone t f) : Conjunct ('(' :: t ++ [')']) f := by
  refine ⟨opens_of_head (by decide) (by decide), ?_⟩
  intro n m s hs hn hm
  simp only [List.length_append, List.length_cons, List.length_nil] at hn hm
  obtain ⟨n, rfl⟩ : ∃ n', n = n' + 1 := ⟨n - 1, by omega⟩
  obtain ⟨m, rfl⟩ : ∃ m', m = m' + 1 := ⟨m - 1, by omega⟩
  have hgroup := h n (')' :: s) (.group s) (by omega)
  rw [trimLeft_cons (by decide)] at hgroup
  simp only [List.cons_append, List.append_assoc, List.nil_append]
  rw [modalRun_bottom (by decide) (by decide)]
  exact atom_group hgroup

theorem Conjunct.of_name (ht : IsIdentifier t)
    (hatom : ∀ group s, EndsName s → atom group (t ++ s) = some (f, trimLeft s)) :
    Conjunct t f := by
  refine ⟨opens_of_name ht, ?_⟩
  intro n m s hs hn hm
  obtain ⟨c, t', rfl, hc⟩ := ht.exists_cons
  obtain ⟨m, rfl⟩ : ∃ m', m = m' + 1 := ⟨m - 1, by simp at hm; omega⟩
  have hbracket : c ∉ ['<', '['] := hc.not_mem (by decide)
  have hread := hatom (formula n) s hs.endsName
  exact (modalRun_bottom hc.isBlank_eq_false hbracket).trans hread

theorem conjunct_const (value : Bool) : Conjunct (constText value) (.const value) := by
  have hname : IsIdentifier (constText value) := by cases value <;> decide
  exact .of_name hname fun _ _ hs => atom_const value hs

theorem Conjunct.modal (q : Quantifier) (strength : Strength) {a : Act} (ha : ¬ a.Garbled)
    (h : Conjunct t f) :
    Conjunct ((modalBrackets q strength).1 ++ a.render ++ (modalBrackets q strength).2 ++ t)
      (.modal q strength a f) := by
  have hopening : 1 ≤ (modalBrackets q strength).1.length := by
    cases q <;> cases strength <;> decide
  constructor
  · cases q <;> cases strength <;> exact opens_of_head (by decide) (by decide)
  · intro n m s hs hn hm
    simp only [List.length_append] at hn hm
    obtain ⟨m, rfl⟩ : ∃ m', m = m' + 1 := ⟨m - 1, by omega⟩
    have hbody := h.reads n m s hs (by omega) (by omega)
    simp only [List.append_assoc]
    exact modalRun_modal ha (h.opens.trimLeft_append s) hbody

/-- Only the first conjunct of its body comes under the modality. -/
theorem Joined.modal (q : Quantifier) (strength : Strength) {a : Act} (ha : ¬ a.Garbled)
    (h : Joined .all Conjunct t fs) :
    Joined .all Conjunct
      ((modalBrackets q strength).1 ++ a.render ++ (modalBrackets q strength).2 ++ t)
      (fs.modifyHead (.modal q strength a)) := by
  cases h with
  | single h => exact .single (h.modal q strength ha)
  | cons h hrest =>
    rw [← List.append_assoc _ _ (_ ++ _)]
    exact .cons (h.modal q strength ha) hrest

theorem fix_append (k : Extremum) (x t s : List Char) :
    k.keyword ++ ' ' :: x ++ ". ".toList ++ t ++ s =
      k.keyword ++ ' ' :: (x ++ '.' :: ' ' :: (t ++ s)) := by
  simp

theorem ReadsAlone.fix (k : Extremum) {x : String} (hx : IsIdentifier x.toList)
    (ht : ∀ s, trimLeft (t ++ s) = t ++ s) (h : ReadsAlone t f) :
    ReadsAlone (k.keyword ++ ' ' :: x.toList ++ ". ".toList ++ t) (.fix k x f) := by
  intro n s hs hn
  have htext := fix_append k x.toList t s
  have hlength := congrArg List.length htext
  simp only [List.length_append, List.length_cons] at hlength hn
  obtain ⟨n, rfl⟩ : ∃ n', n = n' + 1 := ⟨n - 1, by omega⟩
  have hkeyword : IsIdentifier k.keyword := by cases k <;> decide
  have hread := (binder_render (k := k) hx (ht s)).trans (map_of_some (h n s hs (by omega)) _)
  unfold formula
  rw [htext, ← trimLeft_trimLeft s]
  exact padded_of_some (hkeyword.trimLeft_append _) (firstOf_binder hread)

end Levels

section Printed

variable {f g : Formula} {fs : List Formula}

theorem render_junction (context : Binding) (q : Quantifier) (f g : Formula) (fs : List Formula) :
    (junction q (f :: g :: fs)).render context =
      parenthesized (q.binding.level ≤ context.level)
        (f.render q.binding ++ renderRest q (g :: fs)) := by
  rw [render]

theorem render_junction_of_lt (context : Binding) (q : Quantifier) (f g : Formula)
    (fs : List Formula) (h : context.level < q.binding.level) :
    (junction q (f :: g :: fs)).render context = f.render q.binding ++ renderRest q (g :: fs) := by
  simp [render_junction, parenthesized, Nat.not_le.mpr h]

theorem render_junction_of_le (context : Binding) (q : Quantifier) (f g : Formula)
    (fs : List Formula) (h : q.binding.level ≤ context.level) :
    (junction q (f :: g :: fs)).render context =
      '(' :: (f.render q.binding ++ renderRest q (g :: fs)) ++ [')'] := by
  simp [render_junction, parenthesized, h]

theorem render_fix_outer (k : Extremum) (x : String) (f : Formula) :
    (fix k x f).render .outer =
      k.keyword ++ ' ' :: x.toList ++ ". ".toList ++ f.render .outer := by
  simp [render, parenthesized, Binding.level]

theorem render_fix_of_le (k : Extremum) (x : String) (f : Formula) {context : Binding}
    (h : Binding.fix.level ≤ context.level) :
    (fix k x f).render context = '(' :: (fix k x f).render .outer ++ [')'] := by
  rw [render_fix_outer, render]
  simp [parenthesized, h]

/-- Only a fixpoint without parentheses starts with a binder. A junction starts as its first part
does, and there a fixpoint has parentheses. -/
theorem Spelt.opens {allowed : Act → Prop} {least : Nat} (h : f.Spelt allowed least)
    {context : Binding} (hfix : context = .outer → ∀ k x g, f ≠ .fix k x g) :
    Opens (f.render context) := by
  induction h generalizing context with
  | const value =>
    rw [render]
    exact opens_of_name (by cases value <;> decide)
  | var hx hne =>
    rw [render]
    exact opens_of_name hx
  | modal q strength ha hf ih =>
    rw [render]
    cases q <;> cases strength <;> exact opens_of_head (by decide) (by decide)
  | @junction q fs hlength hfs ih =>
    have hbinding : ∀ f : Formula, q.binding = .outer → ∀ k x g, f ≠ .fix k x g := by
      intro f hq
      cases q <;> simp [Quantifier.binding] at hq
    match fs, ih with
    | [], _ =>
      rw [render]
      exact opens_of_name (by cases q <;> decide)
    | [f], ih =>
      rw [render]
      exact ih f (by simp) (hbinding f)
    | f :: g :: fs, ih =>
      rw [render_junction]
      cases hneeded : decide (q.binding.level ≤ context.level)
      · simp only [parenthesized, renderRest, Bool.false_eq_true, if_false, List.append_assoc]
        exact (ih f (by simp) (hbinding f)).append_separator q _
      · exact opens_of_head (by decide) (by decide)
  | fix k hx hf ih =>
    rw [render]
    cases context with
    | outer => exact absurd rfl (hfix rfl _ _ _)
    | _ => exact opens_of_head (by decide) (by decide)

theorem Spelt.trimLeft_outer {allowed : Act → Prop} {least : Nat} (h : f.Spelt allowed least)
    (s : List Char) : trimLeft (f.render .outer ++ s) = f.render .outer ++ s := by
  cases f with
  | fix k x f =>
    have hkeyword : IsIdentifier k.keyword := by cases k <;> decide
    simp only [render_fix_outer, List.append_assoc]
    exact hkeyword.trimLeft_append _
  | _ => exact (h.opens (by simp)).trimLeft_append s

theorem join_append (q : Quantifier) {fs gs : List Formula} (hfs : fs ≠ []) (hgs : gs ≠ []) :
    join q (fs ++ gs) = .junction q (fs ++ gs) := by
  obtain ⟨f, fs, rfl⟩ := List.exists_cons_of_ne_nil hfs
  obtain ⟨g, gs, rfl⟩ := List.exists_cons_of_ne_nil hgs
  cases fs <;> simp [join]

/-- Inside another formula the text of `f` is the row of its conjuncts, and alone it is read as
`g`. -/
structure ReadsAs (f g : Formula) : Prop where
  conjuncts : ∀ context, Binding.or.level ≤ context.level →
    Joined .all Conjunct (f.render context) (f.conjuncts context)
  alone : ReadsAlone (f.render .outer) g

theorem ReadsAs.of_conjuncts (houter : f.render .outer = f.render .or)
    (h : ∀ context, Binding.or.level ≤ context.level →
      Joined .all Conjunct (f.render context) (f.conjuncts context)) : ReadsAs f f.reading := by
  have hdisjunct : Disjunct (f.render .or) f.reading := ⟨_, h .or (Nat.le_refl _), rfl⟩
  rw [← houter] at hdisjunct
  exact ⟨h, hdisjunct.readsAlone⟩

theorem ReadsAs.of_alone (hrender : ∀ context, Binding.or.level ≤ context.level →
      f.render context = '(' :: f.render .outer ++ [')'])
    (hconjuncts : ∀ context, f.conjuncts context = [g]) (h : ReadsAlone (f.render .outer) g) :
    ReadsAs f f.reading := by
  constructor
  · intro context hcontext
    rw [hrender context hcontext, hconjuncts]
    exact .single h.group
  · simpa [reading, hconjuncts, join] using h

/-- A conjunction hands its conjuncts to a disjunction, and stands in parentheses elsewhere. -/
theorem ReadsAs.all (ih : ∀ h ∈ f :: g :: fs, ReadsAs h h.reading) :
    ReadsAs (.junction .all (f :: g :: fs)) (junction .all (f :: g :: fs)).reading := by
  have hrow := Joined.render fun h hh => (ih h hh).conjuncts .and (by decide)
  have hjoin : join .all ((f :: g :: fs).flatMap (Formula.conjuncts .and)) =
      .junction .all ((f :: g :: fs).flatMap (Formula.conjuncts .and)) := by
    have hf := ((ih f (by simp)).conjuncts .and (by decide)).ne_nil
    have hg := ((ih g (by simp)).conjuncts .and (by decide)).ne_nil
    rw [List.flatMap_cons]
    exact join_append .all hf (by simp [hg])
  have hgroup := (Disjunct.readsAlone ⟨_, hrow, hjoin⟩).group
  have hor := render_junction_of_lt .or .all f g fs (by decide)
  have houter := render_junction_of_lt .outer .all f g fs (by decide)
  apply ReadsAs.of_conjuncts (houter.trans hor.symm)
  intro context hcontext
  by_cases hlevel : Binding.and.level ≤ context.level
  · rw [render_junction_of_le context .all f g fs hlevel, conjuncts_all_of_le hlevel]
    exact .single hgroup
  · rw [render_junction_of_lt context .all f g fs (Nat.lt_of_not_le hlevel),
      conjuncts_all_of_lt (Nat.lt_of_not_le hlevel)]
    exact hrow

theorem ReadsAs.any (ih : ∀ h ∈ f :: g :: fs, ReadsAs h h.reading) :
    ReadsAs (.junction .any (f :: g :: fs)) (junction .any (f :: g :: fs)).reading := by
  have hrow : Joined .any Disjunct (f.render .or ++ renderRest .any (g :: fs))
      ((f :: g :: fs).map reading) := by
    rw [List.map_eq_flatMap]
    apply Joined.render
    intro h hh
    exact .single ⟨_, (ih h hh).conjuncts .or (Nat.le_refl _), rfl⟩
  have houter := render_junction_of_lt .outer .any f g fs (by decide)
  apply ReadsAs.of_alone
  · intro context hcontext
    rw [houter]
    exact render_junction_of_le context .any f g fs hcontext
  · exact fun context => conjuncts_any context f g fs
  · rw [houter]
    exact hrow.readsAlone

theorem ReadsAs.fix (k : Extremum) {x : String} (hx : IsIdentifier x.toList)
    (htrim : ∀ s, trimLeft (f.render .outer ++ s) = f.render .outer ++ s)
    (ih : ReadsAs f f.reading) : ReadsAs (.fix k x f) (Formula.fix k x f).reading := by
  apply ReadsAs.of_alone
  · exact fun context hcontext => render_fix_of_le k x f (Nat.le_of_succ_le hcontext)
  · exact fun context => by rw [Formula.conjuncts]
  · rw [render_fix_outer]
    exact ih.alone.fix k hx htrim

theorem Spelt.readsAs {least : Nat} (h : f.Spelt (fun a => ¬ a.Garbled) least) :
    ReadsAs f f.reading := by
  induction h with
  | const value =>
    apply ReadsAs.of_conjuncts (by simp [render])
    intro context _
    simp only [render, Formula.conjuncts]
    exact .single (conjunct_const value)
  | var hx hne =>
    apply ReadsAs.of_conjuncts (by simp [render])
    intro context _
    simp only [render, Formula.conjuncts]
    exact .single (.of_name hx fun _ _ hs => atom_var hx hne hs)
  | modal q strength ha hf ih =>
    apply ReadsAs.of_conjuncts (by simp [render])
    intro context _
    simp only [render, Formula.conjuncts]
    exact (ih.conjuncts .modal (by decide)).modal q strength ha
  | @junction q fs hlength hfs ih =>
    match fs, ih with
    | [], _ =>
      apply ReadsAs.of_conjuncts (by simp [render])
      intro context _
      simp only [render, Formula.conjuncts]
      exact .single (conjunct_const _)
    | [f], ih =>
      apply ReadsAs.of_conjuncts (by simp [render])
      intro context _
      simp only [render, Formula.conjuncts]
      exact (ih f (by simp)).conjuncts q.binding (by cases q <;> decide)
    | f :: g :: fs, ih =>
      cases q with
      | any => exact ReadsAs.any ih
      | all => exact ReadsAs.all ih
  | fix k hx hf ih => exact ReadsAs.fix k hx hf.trimLeft_outer ih

theorem ReadsAs.parse_eq (h : ReadsAs f g) : parse f.text = some g := by
  have hread := h.alone (f.render .outer).length [] .nil (Nat.le_refl _)
  rw [List.append_nil] at hread
  unfold parse text Grammar.read
  rw [String.toList_ofList, hread]
  rfl

theorem conjuncts_and (f : Formula) : f.conjuncts .and = f.conjuncts .modal := by
  cases f with
  | junction q fs =>
    match q, fs with
    | _, [] => simp [conjuncts]
    | _, [f] => simp [conjuncts]
    | .any, f :: g :: fs => simp [conjuncts]
    | .all, f :: g :: fs => simp [conjuncts, Binding.level]
  | _ => simp [conjuncts]

/-- Nothing is lost where every junction has two parts or more. -/
theorem Spelt.conjuncts_eq {allowed : Act → Prop} (h : f.Spelt allowed 2) :
    f.conjuncts .modal = [f] ∧ f.reading = f := by
  induction h with
  | const value => simp [reading, conjuncts, join]
  | var hx hne => simp [reading, conjuncts, join]
  | modal q strength ha hf ih => simp [reading, conjuncts, ih.1, join]
  | @junction q fs hlength hfs ih =>
    match fs, hlength with
    | f :: g :: fs, _ =>
      cases q with
      | any =>
        have hmap : (f :: g :: fs).map reading = f :: g :: fs :=
          (List.map_congr_left fun h hh => (ih h hh).2).trans (List.map_id _)
        rw [reading, conjuncts_any, conjuncts_any, hmap]
        exact ⟨rfl, rfl⟩
      | all =>
        have hsingle : ∀ h ∈ f :: g :: fs, h.conjuncts .and = [h] :=
          fun h hh => (conjuncts_and h).trans (ih h hh).1
        have hflat : (f :: g :: fs).flatMap (conjuncts .and) = f :: g :: fs := by
          rw [List.flatMap_def, List.map_congr_left hsingle, ← List.flatMap_def,
            List.flatMap_singleton']
        rw [reading, conjuncts_all_of_le (by decide), conjuncts_all_of_lt (by decide), hflat]
        exact ⟨rfl, rfl⟩
  | @fix k x f hx hf ih =>
    have hbody : join .all (f.conjuncts .or) = f := ih.2
    rw [reading, conjuncts, conjuncts, hbody]
    exact ⟨rfl, rfl⟩

theorem Spelt.parse_eq (h : f.Spelt (fun a => ¬ a.Garbled) 2) : parse f.text = some f := by
  rw [h.readsAs.parse_eq, h.conjuncts_eq.2]

end Printed

end ProcessLogic.Formula
