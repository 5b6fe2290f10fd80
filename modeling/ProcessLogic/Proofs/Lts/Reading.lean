import ProcessLogic.Proofs.Lts.Rendering

/-!
# What an accepted text says

Every text that is accepted is laid out by the grammar of the format, line by line. So the system it
is read as has the numbers of its header, one transition for each line behind it, and rows that list
the transitions of the lines in their order. All states named are in range, and queries that follow
the transitions never leave it.
-/

set_option autoImplicit false

namespace ProcessLogic

open Text

namespace Aldebaran

section Token

variable {c : Char} {n : Nat} {s t x y rest text item token : List Char}
  {tokens : List (List Char)}

theorem gap_of_blank (hx : ∀ c ∈ x, isBlank c = true) (hnewline : '\n' ∉ x) : Gap x :=
  fun c hc => ⟨hx c hc, fun heq => hnewline (heq ▸ hc)⟩

theorem gap_nil : Gap [] := fun _ hc => absurd hc List.not_mem_nil

theorem Padded.refl (s : List Char) : Padded s s := ⟨[], [], gap_nil, gap_nil, by simp⟩

theorem padded_trim (hnewline : '\n' ∉ s) : Padded (trim s) s := by
  obtain ⟨x, y, hx, hy, heq⟩ := exists_eq_append_trim s
  have hsubset : x ⊆ s ∧ y ⊆ s := by
    rw [heq]
    exact ⟨fun c hc => by simp [hc], fun c hc => by simp [hc]⟩
  exact ⟨x, y, gap_of_blank hx fun hc => hnewline (hsubset.1 hc),
    gap_of_blank hy fun hc => hnewline (hsubset.2 hc), heq⟩

theorem Spaced.join_first (hx : Gap x) (h : Spaced tokens rest) :
    Spaced (item :: tokens) (x ++ (item ++ rest)) := by
  have hitem : Padded item (x ++ item ++ []) := ⟨x, [], hx, gap_nil, rfl⟩
  simpa using Spaced.cons hitem h

theorem Spaced.join (hitem : Padded item s) (h : Spaced tokens rest) :
    Spaced (item :: [c] :: tokens) (s ++ c :: rest) :=
  .cons hitem (.cons (.refl [c]) h)

theorem Spaced.join_last (hitem : Padded item s) (hy : Gap y) :
    Spaced [item, [c]] (s ++ c :: y) := by
  have hclosing : Padded [c] ([] ++ [c] ++ y) := ⟨[], y, gap_nil, hy, rfl⟩
  simpa using Spaced.cons hitem (.cons hclosing .nil)

theorem spelled_of_readNumeral (h : readNumeral s = .ok n) : Spelled n s := by
  unfold readNumeral at h
  split at h
  · simp at h
  · simp at h
  · next s hne =>
    obtain ⟨zeros, rfl⟩ := eq_numeral_of_readDigits (fun hnil => hne (by rw [hnil])) h
    exact ⟨['+'], zeros, Or.inr rfl, rfl⟩
  · next hne _ _ =>
    obtain ⟨zeros, rfl⟩ := eq_numeral_of_readDigits hne h
    exact ⟨[], zeros, Or.inl rfl, rfl⟩

theorem exists_spelled_of_readNumber {wrap : NumeralError → FormatError}
    (h : readNumber wrap s = .ok n) (hnewline : '\n' ∉ s) : ∃ t, Spelled n t ∧ Padded t s :=
  ⟨trim s, spelled_of_readNumeral (readNumber_eq_ok.mp h), padded_trim hnewline⟩

/-- What is read as a label is one, with blanks around it and before a comma. -/
theorem exists_labelled_of_readLabel (h : readLabel s = .ok (text, rest)) (hnewline : '\n' ∉ s) :
    ∃ t u, Labelled (trim text) t ∧ Padded t u ∧ s = u ++ ',' :: rest := by
  unfold readLabel at h
  split at h
  · next t ht =>
    obtain ⟨⟨label, t'⟩, hcut, h⟩ := bind_eq_ok.mp h
    obtain ⟨t'', hcomma, h⟩ := bind_eq_ok.mp h
    obtain ⟨rfl, rfl⟩ := Prod.mk.inj (Except.ok.inj h)
    obtain ⟨rfl, hquote⟩ := cut?_eq_some_iff.mp (expect_eq_ok.mp hcut)
    obtain ⟨x, hx, hs⟩ := exists_eq_append_trimLeft s
    obtain ⟨y, hy, ht'⟩ := exists_eq_append_trimLeft t'
    rw [after?_eq_some_iff.mp ht] at hs
    rw [after?_eq_some_iff.mp (expect_eq_ok.mp hcomma)] at ht'
    have htext : s = x ++ '"' :: (label ++ ['"']) ++ y ++ ',' :: t'' := by
      rw [hs, ht']
      simp
    have hgap : Gap x ∧ Gap y := ⟨gap_of_blank hx fun hc => hnewline (by simp [htext, hc]),
      gap_of_blank hy fun hc => hnewline (by simp [htext, hc])⟩
    have hlabel : Padded (trim label) label := padded_trim fun hc => hnewline (by simp [htext, hc])
    exact ⟨_, _, .quoted (fun hc => hquote (trim_subset label hc)) hlabel,
      ⟨x, y, hgap.1, hgap.2, rfl⟩, htext⟩
  · next hnone =>
    obtain ⟨rfl, hcomma⟩ := cut?_eq_some_iff.mp (expect_eq_ok.mp h)
    refine ⟨trim text, text, .bare (fun hc => hcomma (trim_subset text hc)) ?_,
      padded_trim fun hc => hnewline (by simp [hc]), rfl⟩
    -- a quote in front would have been taken for an opening one
    intro hhead
    obtain ⟨t, ht⟩ := trimRight_prefix (trimLeft text)
    obtain ⟨u, hu⟩ := List.head?_eq_some_iff.mp hhead
    have hopening : trimLeft (text ++ ',' :: rest) = ['"'] ++ (u ++ t ++ ',' :: rest) := by
      have htrim : trimRight (trimLeft text) = '"' :: u := hu
      rw [trimLeft_append (by decide), ← ht, htrim]
      simp
    rw [after?_eq_some_iff.mpr hopening] at hnone
    simp at hnone

end Token

section Line

variable {states : Nat} {line : List Char} {h : Header} {e : Edge}

theorem headerLine_of_readHeader (hread : readHeader line = .ok h) (hnewline : '\n' ∉ line) :
    HeaderLine h line := by
  unfold readHeader at hread
  obtain ⟨s, hdes, hread⟩ := bind_eq_ok.mp hread
  obtain ⟨s₁, hopening, hread⟩ := bind_eq_ok.mp hread
  obtain ⟨⟨first, s₂⟩, hcut₁, hread⟩ := bind_eq_ok.mp hread
  obtain ⟨⟨transitions, s₃⟩, hcut₂, hread⟩ := bind_eq_ok.mp hread
  obtain ⟨states, hclosing, hread⟩ := bind_eq_ok.mp hread
  obtain ⟨m₁, hfirst, hread⟩ := bind_eq_ok.mp hread
  obtain ⟨m₂, htransitions, hread⟩ := bind_eq_ok.mp hread
  obtain ⟨m₃, hstates, hread⟩ := bind_eq_ok.mp hread
  split at hread
  · obtain rfl := Except.ok.inj hread
    -- the line, taken apart at its tokens
    obtain ⟨x, y, hx, hy, hline⟩ := exists_eq_append_trim line
    obtain ⟨x', y', hx', hy', hs⟩ := exists_eq_append_trim s
    obtain ⟨z, hz, hs₃⟩ := exists_eq_trimRight_append s₃
    obtain ⟨rfl, -⟩ := cut?_eq_some_iff.mp (expect_eq_ok.mp hcut₁)
    obtain ⟨rfl, -⟩ := cut?_eq_some_iff.mp (expect_eq_ok.mp hcut₂)
    rw [after?_eq_some_iff.mp (expect_eq_ok.mp hdes)] at hline
    rw [after?_eq_some_iff.mp (expect_eq_ok.mp hopening)] at hs
    rw [before?_eq_some_iff.mp (expect_eq_ok.mp hclosing)] at hs₃
    have htext : line = x ++ ("des".toList ++ (x' ++ (['('] ++ (first ++ ',' ::
        (transitions ++ ',' :: (states ++ ')' :: (z ++ (y' ++ y)))))))) := by
      rw [hline, hs, hs₃]
      simp
    have hfree : ∀ {p : List Char}, (∀ c ∈ p, c ∈ line) → '\n' ∉ p :=
      fun hp hc => hnewline (hp _ hc)
    obtain ⟨t₁, hone, ht₁⟩ :=
      exists_spelled_of_readNumber hfirst (hfree fun c hc => by simp [htext, hc])
    obtain ⟨t₂, htwo, ht₂⟩ :=
      exists_spelled_of_readNumber htransitions (hfree fun c hc => by simp [htext, hc])
    obtain ⟨t₃, hthree, ht₃⟩ :=
      exists_spelled_of_readNumber hstates (hfree fun c hc => by simp [htext, hc])
    have hgap₁ := gap_of_blank hx (hfree fun c hc => by simp [htext, hc])
    have hgap₂ := gap_of_blank hx' (hfree fun c hc => by simp [htext, hc])
    have hgap₃ : Gap (z ++ (y' ++ y)) :=
      (gap_of_blank hz (hfree fun c hc => by simp [htext, hc])).append
        ((gap_of_blank hy' (hfree fun c hc => by simp [htext, hc])).append
          (gap_of_blank hy (hfree fun c hc => by simp [htext, hc])))
    refine ⟨t₁, t₂, t₃, hone, htwo, hthree, ?_⟩
    rw [htext]
    exact .join_first hgap₁ (.join_first hgap₂ (.join ht₁ (.join ht₂ (.join_last ht₃ hgap₃))))
  · exact absurd hread throw_ne_ok

/-- The numbers of an edge that is read are those of the texts before and behind its label. -/
theorem edgeFrom_items {source label s : List Char}
    (h : edgeFrom states source (label, s) = .ok e) :
    ∃ target, trimRight s = target ++ [')'] ∧ readNumber .start source = .ok e.source ∧
      readNumber .finish target = .ok e.target := by
  unfold edgeFrom at h
  obtain ⟨target, hclosing, h⟩ := bind_eq_ok.mp h
  obtain ⟨m, hsource, h⟩ := bind_eq_ok.mp h
  obtain ⟨n, htarget, h⟩ := bind_eq_ok.mp h
  obtain ⟨-, h⟩ := guarded_eq_ok.mp h
  obtain ⟨-, h⟩ := guarded_eq_ok.mp h
  obtain rfl := Except.ok.inj h
  exact ⟨target, before?_eq_some_iff.mp (expect_eq_ok.mp hclosing), hsource, htarget⟩

theorem edgeLine_of_readEdge (hread : readEdge states line = .ok e) (hnewline : '\n' ∉ line) :
    EdgeLine e line := by
  obtain ⟨source, s, label, s', htrim, hlabel, hedge⟩ := readEdge_eq_ok hread
  obtain ⟨-, -, heq, -⟩ := edgeFrom_eq_ok hedge
  obtain ⟨target, hclosing, hsource, htarget⟩ := edgeFrom_items hedge
  obtain ⟨x, y, hx, hy, hline⟩ := exists_eq_append_trim line
  obtain ⟨z, hz, hs'⟩ := exists_eq_trimRight_append s'
  rw [htrim] at hline
  rw [hclosing] at hs'
  have hfree : ∀ {p : List Char}, (∀ c ∈ p, c ∈ line) → '\n' ∉ p :=
    fun hp hc => hnewline (hp _ hc)
  obtain ⟨t, u, hlabelled, hpadded, hs⟩ :=
    exists_labelled_of_readLabel hlabel (hfree fun c hc => by simp [hline, hc])
  have htext : line = x ++ (['('] ++ (source ++ ',' :: (u ++ ',' ::
      (target ++ ')' :: (z ++ y))))) := by
    rw [hline, hs, hs']
    simp
  obtain ⟨t₁, hone, ht₁⟩ :=
    exists_spelled_of_readNumber hsource (hfree fun c hc => by simp [htext, hc])
  obtain ⟨t₂, htwo, ht₂⟩ :=
    exists_spelled_of_readNumber htarget (hfree fun c hc => by simp [htext, hc])
  have hgap₁ := gap_of_blank hx (hfree fun c hc => by simp [htext, hc])
  have hgap₂ : Gap (z ++ y) := (gap_of_blank hz (hfree fun c hc => by simp [htext, hc])).append
    (gap_of_blank hy (hfree fun c hc => by simp [htext, hc]))
  refine ⟨t₁, t, t₂, hone, ?_, htwo, ?_⟩
  · rwa [heq, String.toList_ofList]
  · rw [htext]
    exact .join_first hgap₁ (.join ht₁ (.join hpadded (.join_last ht₂ hgap₂)))

end Line

end Aldebaran

namespace Lts

open Aldebaran

variable {l : Lts} {s t : StateId} {text : String}

/-- An answer about `s`, strong or weak, has a transition to `t`. -/
def Leads (l : Lts) (s t : StateId) : Prop :=
  ∃ strength row a, ((l.generator strength).successors s).value = .ok row ∧ ⟨a, t⟩ ∈ row

theorem Leads.lt (h : l.Leads s t) (hl : l.InRange) (hs : s < l.stateCount) : t < l.stateCount := by
  obtain ⟨strength, row, a, hvalue, hmem⟩ := h
  obtain rfl := Except.ok.inj ((successors_value hl hs).symm.trans hvalue)
  exact Move.lt hl ((mem_transitions_generator hl hs).mp hmem) hs

theorem lt_of_leads (hl : l.InRange) (hs : s < l.stateCount)
    (h : Relation.ReflTransGen l.Leads s t) : t < l.stateCount := by
  induction h with
  | refl => exact hs
  | tail _ step ih => exact step.lt hl ih

theorem headerOf_collect {h : Header} {edges : List Edge} (hlength : edges.length = h.transitions)
    (hsource : ∀ e ∈ edges, e.source < h.states) :
    headerOf (collect h.first h.states edges) = h := by
  rw [headerOf, transitionCount_collect hsource, stateCount_collect, hlength]
  rfl

/-- The text is a header with the numbers of the system and one line for each transition. A row
lists the transitions of the lines that name its state first, in their order. -/
theorem exists_lines_of_parse (h : parse text = .ok l) :
    ∃ header body edges, content text.toList = header :: body ∧ HeaderLine (headerOf l) header ∧
      body.length = l.transitionCount ∧ List.Forall₂ EdgeLine edges body ∧
      ∀ s, s < l.stateCount → l.rows[s]? = some (leaving s edges) := by
  obtain ⟨header, body, edges, hd, hcontent, hheader, hbody, hlength, rfl⟩ := readLines_eq_ok h
  have hnewline : ∀ line ∈ header :: body, '\n' ∉ line :=
    fun line hline => newline_not_mem_content (hcontent ▸ hline)
  have hlines : ∀ line ∈ body, '\n' ∉ line :=
    fun line hline => hnewline line (List.mem_cons_of_mem _ hline)
  have hread := mapM_eq_ok_iff.mp hbody
  have hedge : ∀ e ∈ edges, e.source < hd.states :=
    fun e he => (edgeRead_of_mapM hlines hbody e he).source_lt
  refine ⟨header, body, edges, hcontent, ?_, ?_, ?_, ?_⟩
  · rw [headerOf_collect hlength hedge]
    exact headerLine_of_readHeader hheader (hnewline header List.mem_cons_self)
  · rw [transitionCount_collect hedge, hread.length_eq]
  · have hboth : List.Forall₂ (fun line e => '\n' ∉ line ∧ readEdge hd.states line = .ok e)
        body edges :=
      (List.forall₂_and_left _ _).mpr ⟨hlines, hread.flip⟩
    exact (hboth.imp fun line e hline => edgeLine_of_readEdge hline.2 hline.1).flip
  · intro s hs
    rw [stateCount_collect] at hs
    rw [getElem?_collect, if_pos hs]

/-- A system that is read is well formed and says what the lines say, and queries that follow its
transitions, strong or weak, always have an answer. -/
theorem parse_wellFormed (h : parse text = .ok l) :
    l.first < l.stateCount ∧ l.InRange ∧
    (∀ s a t, l.Step s a t → trim a.toList = a.toList ∧ '\n' ∉ a.toList) ∧
    (∃ header body edges, content text.toList = header :: body ∧ HeaderLine (headerOf l) header ∧
      body.length = l.transitionCount ∧ List.Forall₂ EdgeLine edges body ∧
      ∀ s, s < l.stateCount → l.rows[s]? = some (leaving s edges)) ∧
    ∀ s t, s < l.stateCount → Relation.ReflTransGen l.Leads s t → t < l.stateCount ∧
      ∀ strength, ∃ row, ((l.generator strength).successors t).value = .ok row := by
  obtain ⟨hread, -⟩ := parse_readable h
  have hedge : ∀ s a t, l.Step s a t → EdgeRead l.stateCount ⟨s, a, t⟩ :=
    fun s a t hstep => hread.edges ⟨s, a, t⟩ (mem_edges.mpr hstep)
  have hl : l.InRange := fun s a t hstep => (hedge s a t hstep).target_lt
  refine ⟨hread.first_lt, hl, ?_, exists_lines_of_parse h, ?_⟩
  · exact fun s a t hstep => ⟨(hedge s a t hstep).trimmed, (hedge s a t hstep).newline⟩
  · intro s t hs hleads
    have ht := lt_of_leads hl hs hleads
    exact ⟨ht, fun strength => ⟨_, successors_value hl ht⟩⟩

theorem parse_wellFormed_imitating : parse looseText = .ok imitating ∧ imitating.InRange ∧
    (∃ header body edges, content looseText.toList = header :: body ∧
      HeaderLine ⟨1, 4, 2⟩ header ∧ body.length = 4 ∧ List.Forall₂ EdgeLine edges body ∧
      imitating.rows[1]? = some (leaving 1 edges)) ∧
    ∀ t, Relation.ReflTransGen imitating.Leads 1 t → t < 2 ∧
      ∃ row, (imitating.weak.successors t).value = .ok row := by
  have hparse : parse looseText = .ok imitating := by decide +kernel
  obtain ⟨-, hl, -, ⟨header, body, edges, hcontent, hheader, hlength, hlines, hrows⟩, hqueries⟩ :=
    parse_wellFormed hparse
  refine ⟨hparse, hl, ⟨header, body, edges, hcontent, hheader, hlength, hlines, ?_⟩, ?_⟩
  · exact hrows 1 (by decide)
  · intro t ht
    obtain ⟨hlt, hanswers⟩ := hqueries 1 t (by decide) ht
    exact ⟨hlt, hanswers .weak⟩

end Lts

end ProcessLogic
