import ProcessLogic.Proofs.Lts.Aldebaran

/-!
# The layouts of the Aldebaran format

A system can be written down in many ways: with blanks around the tokens and blank lines between
the lines, with signs and zeros in front of the numbers, with labels in quotes or without, and with
the edges of different sources mixed. Each of these texts is read as the system it was written for.
-/

set_option autoImplicit false

namespace ProcessLogic

open Text

namespace Aldebaran

/-- Blanks within a line. -/
def Gap (s : List Char) : Prop := ∀ c ∈ s, isBlank c = true ∧ c ≠ '\n'

/-- A token with blanks around it. -/
def Padded (token s : List Char) : Prop := ∃ x y, Gap x ∧ Gap y ∧ s = x ++ token ++ y

/-- Tokens in order, each with blanks around it. -/
inductive Spaced : List (List Char) → List Char → Prop where
  | nil : Spaced [] []
  | cons {token s t : List Char} {tokens : List (List Char)} : Padded token s → Spaced tokens t →
      Spaced (token :: tokens) (s ++ t)

/-- A plus sign and zeros may stand in front of a number. -/
def Spelled (n : Nat) (s : List Char) : Prop :=
  ∃ sign zeros, (sign = [] ∨ sign = ['+']) ∧ s = sign ++ List.replicate zeros '0' ++ numeral n

/-- A label in quotes that it has none of, or without quotes where no comma ends it early. -/
inductive Labelled (label : List Char) : List Char → Prop where
  | quoted {s : List Char} : '"' ∉ label → Padded label s → Labelled label ('"' :: (s ++ ['"']))
  | bare : ',' ∉ label → label.head? ≠ some '"' → Labelled label label

def HeaderLine (h : Header) (line : List Char) : Prop :=
  ∃ first transitions states, Spelled h.first first ∧ Spelled h.transitions transitions ∧
    Spelled h.states states ∧
    Spaced ["des".toList, ['('], first, [','], transitions, [','], states, [')']] line

def EdgeLine (e : Edge) (line : List Char) : Prop :=
  ∃ source label target, Spelled e.source source ∧ Labelled e.label.toList label ∧
    Spelled e.target target ∧ Spaced [['('], source, [','], label, [','], target, [')']] line

/-- Lines with their ends, and blank lines anywhere. The last line needs no end. -/
inductive Laid : List (List Char) → List Char → Prop where
  | done {s : List Char} : Gap s → Laid [] s
  | last (line : List Char) : Laid [line] line
  | blank {s t : List Char} {lines : List (List Char)} : Gap s → Laid lines t →
      Laid lines (s ++ '\n' :: t)
  | line {line cr t : List Char} {lines : List (List Char)} : cr = [] ∨ cr = ['\r'] →
      Laid lines t → Laid (line :: lines) (line ++ cr ++ '\n' :: t)

/-- A text for a system. Edges of different sources may be mixed in any way. -/
def Rendering (l : Lts) (text : List Char) : Prop :=
  ∃ edges header lines, (∀ s, Lts.leaving s edges = l.transitions s) ∧
    HeaderLine (headerOf l) header ∧ List.Forall₂ EdgeLine edges lines ∧
    Laid (header :: lines) text

section Token

variable {c d : Char} {n : Nat} {s t x y token item : List Char} {tokens : List (List Char)}

theorem Gap.blank (h : Gap s) : ∀ c ∈ s, isBlank c = true := fun c hc => (h c hc).1

instance (s : List Char) : Decidable (Gap s) := List.decidableBAll _ s

theorem Gap.not_mem_newline (h : Gap s) : '\n' ∉ s := fun hmem => (h _ hmem).2 rfl

theorem Gap.append (hx : Gap x) (hy : Gap y) : Gap (x ++ y) := by
  intro c hc
  rcases List.mem_append.mp hc with hc | hc
  · exact hx c hc
  · exact hy c hc

theorem Padded.trim_eq (h : Padded token s) : trim s = trim token := by
  obtain ⟨x, y, hx, hy, rfl⟩ := h
  rw [trim_append_blank hy.blank, trim_blank_append hx.blank]

theorem Padded.mem (h : Padded token s) (hc : c ∈ s) :
    c ∈ token ∨ isBlank c = true ∧ c ≠ '\n' := by
  obtain ⟨x, y, hx, hy, rfl⟩ := h
  rcases List.mem_append.mp hc with hc | hc
  · rcases List.mem_append.mp hc with hc | hc
    · exact Or.inr (hx c hc)
    · exact Or.inl hc
  · exact Or.inr (hy c hc)

theorem Padded.not_mem (h : Padded token s) (hc : isBlank c = false) (htoken : c ∉ token) :
    c ∉ s := by
  intro hmem
  rcases h.mem hmem with hmem | ⟨hblank, -⟩
  · exact htoken hmem
  · simp [hc] at hblank

theorem Padded.not_mem_newline (h : Padded token s) (htoken : '\n' ∉ token) : '\n' ∉ s := by
  intro hmem
  rcases h.mem hmem with hmem | ⟨-, hne⟩
  · exact htoken hmem
  · exact hne rfl

theorem Padded.append_gap (h : Padded token s) (hy : Gap y) : Padded token (s ++ y) := by
  obtain ⟨x, y', hx, hy', rfl⟩ := h
  exact ⟨x, y' ++ y, hx, hy'.append hy, by simp⟩

theorem Gap.spaced_append (hx : Gap x) (h : Spaced (token :: tokens) s) :
    Spaced (token :: tokens) (x ++ s) := by
  cases h with
  | cons htoken hrest =>
    obtain ⟨x', y, hx', hy, rfl⟩ := htoken
    rw [← List.append_assoc]
    exact .cons ⟨x ++ x', y, hx.append hx', hy, by simp⟩ hrest

theorem Spaced.split_first (h : Spaced (item :: token :: tokens) t) :
    ∃ x rest, Gap x ∧ t = x ++ (item ++ rest) ∧ Spaced (token :: tokens) rest := by
  cases h with
  | cons hitem hrest =>
    obtain ⟨x, y, hx, hy, rfl⟩ := hitem
    exact ⟨x, y ++ _, hx, by simp, hy.spaced_append hrest⟩

/-- An item stands before its separator, and the other tokens behind it. -/
theorem Spaced.split (h : Spaced (item :: [c] :: token :: tokens) t) :
    ∃ s rest, Padded item s ∧ t = s ++ c :: rest ∧ Spaced (token :: tokens) rest := by
  cases h with
  | @cons _ s _ _ hitem h =>
    obtain ⟨x, rest, hx, rfl, hrest⟩ := h.split_first
    exact ⟨s ++ x, rest, hitem.append_gap hx, by simp, hrest⟩

theorem Spaced.split_last (h : Spaced [item, [c]] t) :
    ∃ s y, Padded item s ∧ Gap y ∧ t = s ++ c :: y := by
  cases h with
  | @cons _ s _ _ hitem h =>
    cases h with
    | cons hc hrest =>
      cases hrest
      obtain ⟨x, y, hx, hy, rfl⟩ := hc
      exact ⟨s ++ x, y, hitem.append_gap hx, hy, by simp⟩

theorem Spaced.not_mem_newline (h : Spaced tokens t) (htokens : ∀ token ∈ tokens, '\n' ∉ token) :
    '\n' ∉ t := by
  induction h with
  | nil => exact List.not_mem_nil
  | cons htoken _ ih =>
    have hrest := ih fun token hmem => htokens token (List.mem_cons_of_mem _ hmem)
    simp [htoken.not_mem_newline (htokens _ List.mem_cons_self), hrest]

theorem Spaced.mem (h : Spaced tokens t) (htoken : token ∈ tokens) (hc : c ∈ token) : c ∈ t := by
  induction h with
  | nil => simp at htoken
  | cons hpadded _ ih =>
    rcases List.mem_cons.mp htoken with rfl | htoken
    · obtain ⟨x, y, -, -, rfl⟩ := hpadded
      simp [hc]
    · exact List.mem_append_right _ (ih htoken)

theorem trim_enclosed (hx : Gap x) (hy : Gap y) (hc : isBlank c = false) (hd : isBlank d = false)
    (s : List Char) : trim (x ++ c :: (s ++ d :: y)) = c :: (s ++ [d]) := by
  have htext : x ++ c :: (s ++ d :: y) = x ++ c :: (s ++ [d]) ++ y := by simp
  rw [htext, trim_append_blank hy.blank, trim_blank_append hx.blank]
  apply trim_of_ends rfl hc (d := d) _ hd
  simp [List.getLast?_cons]

theorem Spelled.mem (h : Spelled n s) (hc : c ∈ s) : c = '+' ∨ c.isDigit = true := by
  obtain ⟨sign, zeros, hsign, rfl⟩ := h
  rcases List.mem_append.mp hc with hc | hc
  · rcases List.mem_append.mp hc with hc | hc
    · rcases hsign with rfl | rfl
      · simp at hc
      · exact Or.inl (List.mem_singleton.mp hc)
    · rw [List.eq_of_mem_replicate hc]
      exact Or.inr rfl
  · exact Or.inr (isDigit_of_mem_numeral hc)

theorem Spelled.not_mem (h : Spelled n s) (hplus : c ≠ '+') (hdigit : c.isDigit = false) :
    c ∉ s := by
  intro hc
  rcases h.mem hc with hc | hc
  · exact hplus hc
  · simp [hdigit] at hc

theorem Spelled.trim_eq (h : Spelled n s) : trim s = s := by
  apply trim_of_forall
  intro c hc
  rcases h.mem hc with rfl | hc
  · rfl
  · exact isBlank_of_isDigit hc

theorem Spelled.readNumeral_eq (h : Spelled n s) (hn : n < wordBound) : readNumeral s = .ok n := by
  obtain ⟨sign, zeros, hsign, rfl⟩ := h
  have hdigits : readDigits 0 (List.replicate zeros '0' ++ numeral n) = .ok n := by
    rw [readDigits_zeros, readDigits_numeral hn]
  have hne : List.replicate zeros '0' ++ numeral n ≠ [] :=
    List.append_ne_nil_of_right_ne_nil _ (numeral_ne_nil n)
  rw [List.append_assoc]
  rcases hsign with rfl | rfl
  · have hplus : '+' ∉ List.replicate zeros '0' ++ numeral n := by
      simp [numeral_not_mem (d := '+') (by decide) n]
    exact (readNumeral_of_not_mem hne hplus).trans hdigits
  · exact (readNumeral_plus hne).trans hdigits

theorem Spelled.readNumber_eq (h : Spelled n t) (hs : Padded t s) (hn : n < wordBound)
    (wrap : NumeralError → FormatError) : readNumber wrap s = .ok n := by
  rw [readNumber_eq_ok, hs.trim_eq, h.trim_eq]
  exact h.readNumeral_eq hn

theorem Spelled.not_mem_comma (h : Spelled n t) (hs : Padded t s) : ',' ∉ s :=
  hs.not_mem rfl (h.not_mem (by decide) rfl)

/-- Blanks do not hide whether a label starts with some character. -/
theorem Padded.head_trimLeft_ne {rest : List Char} (h : Padded token s) (htrim : trim token = token)
    (hhead : token.head? ≠ some c) (hc : c ≠ d) : (trimLeft s ++ d :: rest).head? ≠ some c := by
  obtain ⟨x, y, hx, hy, rfl⟩ := h
  rw [List.append_assoc, trimLeft_blank_append hx.blank]
  cases token with
  | nil =>
    have hnil : trimLeft y = [] := List.dropWhile_eq_nil_iff.mpr hy.blank
    simpa [hnil] using Ne.symm hc
  | cons c' token =>
    have hself : trimLeft (c' :: token) = c' :: token := by rw [← htrim, trimLeft_trim]
    rw [List.cons_append, Reader.trimLeft_cons (trimLeft_eq_self_iff.mp hself c' rfl)]
    simpa using hhead

/-- Blanks around a label are read with it. -/
theorem Labelled.readLabel_eq {label : List Char} (h : Labelled label t) (hs : Padded t s)
    (htrim : trim label = label) (rest : List Char) :
    ∃ text, readLabel (s ++ ',' :: rest) = .ok (text, rest) ∧ trim text = label := by
  cases h with
  | @quoted text hquote htext =>
    obtain ⟨x, y, hx, hy, rfl⟩ := hs
    have hopening : trimLeft (x ++ '"' :: (text ++ ['"']) ++ y ++ ',' :: rest) =
        '"' :: (text ++ '"' :: (y ++ ',' :: rest)) := by
      simp only [List.append_assoc, List.cons_append, List.nil_append]
      exact (trimLeft_blank_append hx.blank _).trans (Reader.trimLeft_cons rfl)
    have hcomma : trimLeft (y ++ ',' :: rest) = ',' :: rest :=
      (trimLeft_blank_append hy.blank _).trans (Reader.trimLeft_cons rfl)
    refine ⟨text, readLabel_of_comma hopening (htext.not_mem rfl hquote) hcomma, ?_⟩
    rw [htext.trim_eq, htrim]
  | bare hcomma hhead =>
    -- the text starts with the label or, if there is none, with the comma
    have hbare : after? ['"'] (trimLeft (s ++ ',' :: rest)) = none := by
      rw [Option.eq_none_iff_forall_ne_some]
      intro s' hs'
      have htext := after?_eq_some_iff.mp hs'
      rw [trimLeft_append rfl] at htext
      apply hs.head_trimLeft_ne htrim hhead (d := ',') (by decide)
      rw [htext]
      rfl
    have hcut : expect .noLabel (cut? ',' (s ++ ',' :: rest)) = .ok (s, rest) :=
      expect_eq_ok.mpr (cut?_eq_some_iff.mpr ⟨rfl, hs.not_mem rfl hcomma⟩)
    refine ⟨s, ?_, by rw [hs.trim_eq, htrim]⟩
    unfold readLabel
    rw [hbare]
    exact hcut

end Token

section Line

variable {states : Nat} {h : Header} {e : Edge} {line : List Char}

theorem HeaderLine.readHeader_eq (hline : HeaderLine h line) (hfirst : h.first < h.states)
    (htransitions : h.transitions < wordBound) (hstates : h.states < wordBound) :
    readHeader line = .ok h := by
  obtain ⟨first, transitions, states, hone, htwo, hthree, hspaced⟩ := hline
  obtain ⟨x, rest, hx, hdes, hspaced⟩ := hspaced.split_first
  obtain ⟨y, rest₀, hy, hopening, hspaced⟩ := hspaced.split_first
  obtain ⟨s₁, rest₁, hs₁, hcomma₁, hspaced⟩ := hspaced.split
  obtain ⟨s₂, rest₂, hs₂, hcomma₂, hspaced⟩ := hspaced.split
  obtain ⟨s₃, z, hs₃, hz, hclosing⟩ := hspaced.split_last
  have htext : line = x ++ 'd' :: ('e' :: 's' ::
      (y ++ '(' :: (s₁ ++ ',' :: (s₂ ++ ',' :: s₃))) ++ ')' :: z) := by
    rw [hdes, hopening, hcomma₁, hcomma₂, hclosing]
    simp
  have htrim : trim line = "des".toList ++
      (y ++ '(' :: (s₁ ++ ',' :: (s₂ ++ ',' :: (s₃ ++ [')'])))) := by
    rw [htext, trim_enclosed hx hz rfl rfl]
    simp
  apply readHeader_of_items htrim hy.blank (hone.not_mem_comma hs₁) (htwo.not_mem_comma hs₂)
    _ _ _ hfirst
  · exact hone.readNumber_eq hs₁ (Nat.lt_trans hfirst hstates) _
  · exact htwo.readNumber_eq hs₂ htransitions _
  · exact hthree.readNumber_eq hs₃ hstates _

theorem EdgeLine.readEdge_eq (hline : EdgeLine e line) (hstates : states < wordBound)
    (hsource : e.source < states) (htarget : e.target < states)
    (htrim : trim e.label.toList = e.label.toList) : readEdge states line = .ok e := by
  obtain ⟨source, label, target, hone, hlabel, htwo, hspaced⟩ := hline
  obtain ⟨x, rest, hx, hopening, hspaced⟩ := hspaced.split_first
  obtain ⟨s₁, rest₁, hs₁, hcomma₁, hspaced⟩ := hspaced.split
  obtain ⟨s, rest₂, hs, hcomma₂, hspaced⟩ := hspaced.split
  obtain ⟨s₂, z, hs₂, hz, hclosing⟩ := hspaced.split_last
  have htext : line = x ++ '(' :: (s₁ ++ ',' :: (s ++ ',' :: s₂) ++ ')' :: z) := by
    rw [hopening, hcomma₁, hcomma₂, hclosing]
    simp
  have hcut : trim line = '(' :: (s₁ ++ ',' :: (s ++ ',' :: (s₂ ++ [')']))) := by
    rw [htext, trim_enclosed hx hz rfl rfl]
    simp
  obtain ⟨text, hread, heq⟩ := hlabel.readLabel_eq hs htrim (s₂ ++ [')'])
  exact readEdge_of_items hcut (hone.not_mem_comma hs₁) hread heq
    (hone.readNumber_eq hs₁ (Nat.lt_trans hsource hstates) _)
    (htwo.readNumber_eq hs₂ (Nat.lt_trans htarget hstates) _) hsource htarget

/-- What the layout of a text asks of a line in it. -/
structure Contentful (line : List Char) : Prop where
  newline : '\n' ∉ line
  trim_ne : trim line ≠ []

theorem Spaced.contentful {tokens : List (List Char)} (h : Spaced tokens line)
    (htokens : ∀ token ∈ tokens, '\n' ∉ token) (hopening : ['('] ∈ tokens) : Contentful line := by
  have hmem : '(' ∈ line := h.mem hopening List.mem_cons_self
  exact ⟨h.not_mem_newline htokens, List.ne_nil_of_mem (mem_trim rfl hmem)⟩

theorem Spelled.not_mem_newline {n : Nat} (h : Spelled n line) : '\n' ∉ line :=
  h.not_mem (by decide) rfl

theorem HeaderLine.contentful (hline : HeaderLine h line) : Contentful line := by
  obtain ⟨first, transitions, states, hone, htwo, hthree, hspaced⟩ := hline
  apply hspaced.contentful _ (by simp)
  simp [hone.not_mem_newline, htwo.not_mem_newline, hthree.not_mem_newline]

theorem Labelled.not_mem_newline {label : List Char} (h : Labelled label line)
    (hlabel : '\n' ∉ label) : '\n' ∉ line := by
  cases h with
  | quoted _ htext => simp [htext.not_mem_newline hlabel]
  | bare _ _ => exact hlabel

theorem EdgeLine.contentful (hline : EdgeLine e line) (hlabel : '\n' ∉ e.label.toList) :
    Contentful line := by
  obtain ⟨source, label, target, hone, hlabelled, htwo, hspaced⟩ := hline
  apply hspaced.contentful _ (by simp)
  simp [hone.not_mem_newline, htwo.not_mem_newline, hlabelled.not_mem_newline hlabel]

theorem readHeader_trim (line : List Char) : readHeader (trim line) = readHeader line := by
  simp only [readHeader, trim_trim]

theorem readEdge_trim (states : Nat) (line : List Char) :
    readEdge states (trim line) = readEdge states line := by
  simp only [readEdge, trim_trim]

end Line

section Text

variable {l : Lts} {line text : List Char} {lines : List (List Char)}

/-- Blanks around a line do not count. -/
theorem readLines_trim (lines : List (List Char)) : readLines (lines.map trim) = readLines lines := by
  cases lines with
  | nil => rfl
  | cons header body => simp only [List.map_cons, readLines, readHeader_trim, List.mapM_map,
      Function.comp_def, readEdge_trim]

theorem readLines_of_ok {h : Header} {header : List Char} {edges : List Edge}
    (hheader : readHeader header = .ok h) (hbody : lines.mapM (readEdge h.states) = .ok edges)
    (hlength : edges.length = h.transitions) :
    readLines (header :: lines) = .ok (Lts.collect h.first h.states edges) := by
  rw [readLines, bind_of_ok hheader, bind_of_ok hbody, if_pos hlength]
  rfl

theorem content_append (h : '\n' ∉ line) (text : List Char) :
    content (line ++ '\n' :: text) = content line ++ content text := by
  rw [content, content, content, lines_append h, lines_of_not_mem h, ← List.filter_append]
  rfl

theorem Gap.content_eq (h : Gap line) : content line = [] := by
  rw [content, lines_of_not_mem h.not_mem_newline]
  simp [trim_eq_nil h.blank]

theorem Contentful.content_eq (h : Contentful line) : content line = [line] := by
  rw [content, lines_of_not_mem h.newline]
  simp [h.trim_ne]

theorem Contentful.append_gap {s : List Char} (h : Contentful line) (hs : Gap s) :
    Contentful (line ++ s) := by
  refine ⟨by simp [h.newline, hs.not_mem_newline], ?_⟩
  rw [trim_append_blank hs.blank]
  exact h.trim_ne

theorem gap_cr {cr : List Char} (h : cr = [] ∨ cr = ['\r']) : Gap cr := by
  rcases h with rfl | rfl
  · exact fun c hc => absurd hc List.not_mem_nil
  · exact List.forall_mem_singleton.mpr ⟨rfl, by decide⟩

/-- The lines that a text is laid out from are those that are read from it. -/
theorem Laid.content_eq (h : Laid lines text) (hlines : ∀ line ∈ lines, Contentful line) :
    (content text).map trim = lines.map trim := by
  induction h with
  | done hs => rw [hs.content_eq]
  | last line => rw [(hlines line List.mem_cons_self).content_eq]
  | blank hs _ ih =>
    rw [content_append hs.not_mem_newline, hs.content_eq, List.nil_append]
    exact ih hlines
  | @line line cr _ _ hcr _ ih =>
    have hline := hlines line List.mem_cons_self
    have hfull := hline.append_gap (gap_cr hcr)
    rw [content_append hfull.newline, hfull.content_eq, List.map_append,
      ih fun line hmem => hlines line (List.mem_cons_of_mem _ hmem)]
    simp [trim_append_blank (gap_cr hcr).blank]

end Text

end Aldebaran

namespace Lts

open Aldebaran

variable {l : Lts} {text : String}

/-- However a system is laid out, it is what the text is read as. -/
theorem parse_of_rendering (hstates : l.stateCount < wordBound)
    (htransitions : l.transitionCount < wordBound) (hfirst : l.first < l.stateCount)
    (hl : l.InRange)
    (hlabels : ∀ s a t, l.Step s a t → trim a.toList = a.toList ∧ '\n' ∉ a.toList)
    (h : Rendering l text.toList) :
    parse text = .ok l ∧ (l.stateCount ≤ Table.rowBound → (load text).value = .ok (.ok l)) := by
  obtain ⟨edges, header, lines, hleaving, hheader, hlines, hlaid⟩ := h
  have hstep : ∀ e ∈ edges, l.Step e.source e.label e.target :=
    fun e he => step_of_mem_leaving hleaving he
  have hlength : edges.length = l.transitionCount := by
    have hcount : (collect l.first l.stateCount edges).transitionCount = edges.length :=
      transitionCount_collect fun e he => (hstep e he).source_lt
    rw [← hcount, collect_eq hleaving]
  have hread : List.Forall₂ (fun e line => readEdge l.stateCount line = .ok e) edges lines := by
    apply ((List.forall₂_and_left _ _).mpr ⟨hstep, hlines⟩).imp
    rintro e line ⟨hstep, hline⟩
    exact hline.readEdge_eq hstates hstep.source_lt (hl _ _ _ hstep) (hlabels _ _ _ hstep).1
  have hcontent : ∀ line ∈ header :: lines, Contentful line := by
    intro line hline
    rcases List.mem_cons.mp hline with rfl | hline
    · exact hheader.contentful
    · obtain ⟨e, he, hedge⟩ := exists_left_of_forall₂ hlines hline
      exact hedge.contentful (hlabels _ _ _ (hstep e he)).2
  have hparse : parse text = .ok l :=
    calc
      parse text = readLines ((content text.toList).map trim) := (readLines_trim _).symm
      _ = readLines ((header :: lines).map trim) := by rw [hlaid.content_eq hcontent]
      _ = readLines (header :: lines) := readLines_trim _
      _ = .ok (collect l.first l.stateCount edges) :=
        readLines_of_ok (hheader.readHeader_eq hfirst htransitions hstates)
          (mapM_eq_ok_iff.mpr hread) hlength
      _ = .ok l := by rw [collect_eq hleaving]
  exact ⟨hparse, fun hrows => load_eq_ok_iff.mpr ⟨hrows, hparse⟩⟩

/-- Labels with parentheses and a comma, with quotes in the middle, and with nothing at all. -/
def quaint : Lts := ⟨1, #[[⟨"(x,y)", 1⟩, ⟨"", 0⟩], [⟨"say \"hi\"", 0⟩]]⟩

def quaintText : String :=
  "\n\tdes ( +1 ,3, 002 )\r\n( 0 , \" (x,y)\t\" ,1)\n \r\n\u3000(01, say \"hi\" , 0)\n(0,,+0 ) "

theorem rendering_quaint : Rendering quaint quaintText.toList := by
  have hnil : Gap [] := by decide
  have hspace : Gap [' '] := by decide
  have hplain : ∀ token, Padded token token := fun token => ⟨[], [], hnil, hnil, by simp⟩
  have hwide : ∀ token, Padded token (token ++ [' ']) := fun token => ⟨[], [' '], hnil, hspace, rfl⟩
  refine ⟨[⟨0, "(x,y)", 1⟩, ⟨1, "say \"hi\"", 0⟩, ⟨0, "", 0⟩], "\tdes ( +1 ,3, 002 )".toList,
    ["( 0 , \" (x,y)\t\" ,1)".toList, "\u3000(01, say \"hi\" , 0)".toList, "(0,,+0 ) ".toList],
    ?_, ?_, ?_, ?_⟩
  · intro s
    rcases s with _ | _ | s
    · rfl
    · rfl
    · simp [leaving, transitions, quaint]
  · refine ⟨"+1".toList, "3".toList, "002".toList, ⟨['+'], 0, Or.inr rfl, rfl⟩,
      ⟨[], 0, Or.inl rfl, rfl⟩, ⟨[], 2, Or.inl rfl, rfl⟩, ?_⟩
    exact .cons ⟨['\t'], [' '], by decide, hspace, rfl⟩ (.cons (hwide _) (.cons (hwide _)
      (.cons (hplain _) (.cons (hplain _) (.cons (hwide _) (.cons (hwide _)
      (.cons (hplain _) .nil)))))))
  · refine .cons ⟨"0".toList, "\" (x,y)\t\"".toList, "1".toList, ⟨[], 0, Or.inl rfl, rfl⟩,
      .quoted (s := " (x,y)\t".toList) (by decide) ⟨[' '], ['\t'], hspace, by decide, rfl⟩,
      ⟨[], 0, Or.inl rfl, rfl⟩, ?_⟩ (.cons ⟨"01".toList, "say \"hi\"".toList, "0".toList,
      ⟨[], 1, Or.inl rfl, rfl⟩, .bare (by decide) (by decide), ⟨[], 0, Or.inl rfl, rfl⟩, ?_⟩
      (.cons ⟨"0".toList, [], "+0".toList, ⟨[], 0, Or.inl rfl, rfl⟩, .bare (by decide) (by decide),
      ⟨['+'], 0, Or.inr rfl, rfl⟩, ?_⟩ .nil))
    · exact .cons (hwide _) (.cons (hwide _) (.cons (hwide _) (.cons (hwide _) (.cons (hplain _)
        (.cons (hplain _) (.cons (hplain _) .nil))))))
    · exact .cons ⟨['\u3000'], [], by decide, hnil, rfl⟩ (.cons (hplain _) (.cons (hwide _)
        (.cons (hwide _) (.cons (hwide _) (.cons (hplain _) (.cons (hplain _) .nil))))))
    · exact .cons (hplain _) (.cons (hplain _) (.cons (hplain _) (.cons (hplain _)
        (.cons (hplain _) (.cons (hwide _) (.cons (hwide _) .nil))))))
  · have htext : quaintText.toList = [] ++ '\n' :: ("\tdes ( +1 ,3, 002 )".toList ++ ['\r'] ++
        '\n' :: ("( 0 , \" (x,y)\t\" ,1)".toList ++ [] ++ '\n' :: ([' ', '\r'] ++
        '\n' :: ("\u3000(01, say \"hi\" , 0)".toList ++ [] ++ '\n' :: "(0,,+0 ) ".toList)))) := by
      decide +kernel
    rw [htext]
    exact .blank hnil (.line (Or.inr rfl) (.line (Or.inl rfl) (.blank (by decide)
      (.line (Or.inl rfl) (.last _)))))

theorem parse_of_rendering_quaint : Rendering quaint quaintText.toList ∧
    parse quaintText = .ok quaint ∧ (load quaintText).value = .ok (.ok quaint) := by
  have hfacts : ∀ e ∈ quaint.edges, e.target < quaint.stateCount ∧
      trim e.label.toList = e.label.toList ∧ '\n' ∉ e.label.toList := by decide
  have hedge : ∀ s a t, quaint.Step s a t → _ := fun s a t h => hfacts ⟨s, a, t⟩ (mem_edges.mpr h)
  obtain ⟨hparse, hload⟩ := parse_of_rendering (by decide) (by decide) (by decide)
    (fun s a t h => (hedge s a t h).1) (fun s a t h => (hedge s a t h).2) rendering_quaint
  exact ⟨rendering_quaint, hparse, hload (by decide)⟩

end Lts

end ProcessLogic
