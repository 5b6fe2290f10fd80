import ProcessLogic.Lts.Aldebaran
import ProcessLogic.Proofs.Graph.Presentation
import ProcessLogic.Proofs.Lts.Edges
import ProcessLogic.Proofs.Run
import ProcessLogic.Proofs.Text.Layout

/-!
# Systems that survive the Aldebaran format

Labels are printed in quotes that nothing escapes, one transition to a line. So a system is read
back as it was printed just when its states are in range and each label is trimmed, in one line and
without quotes. Labels that are read without quotes can still contain some, and then the printed
text is refused.
-/

set_option autoImplicit false

namespace ProcessLogic

open Text

namespace Aldebaran

theorem expect_eq_ok {α : Type} {e : FormatError} {x : Option α} {a : α} :
    expect e x = .ok a ↔ x = some a := by
  cases x <;> simp [expect]

theorem readNumber_eq_ok {wrap : NumeralError → FormatError} {s : List Char} {n : Nat} :
    readNumber wrap s = .ok n ↔ readNumeral (trim s) = .ok n := by
  unfold readNumber
  cases readNumeral (trim s) <;> simp [Except.mapError]

theorem readNumber_numeral {n : Nat} (h : n < wordBound) (wrap : NumeralError → FormatError) :
    readNumber wrap (numeral n) = .ok n := by
  rw [readNumber_eq_ok, trim_numeral]
  exact readNumeral_numeral h

/-- What stands in the parentheses, and the closing one. -/
def Header.numbers (h : Header) : List Char :=
  numeral h.first ++ ',' :: (numeral h.transitions ++ ',' :: (numeral h.states ++ [')']))

def Header.line (h : Header) : List Char := "des".toList ++ ' ' :: '(' :: h.numbers

theorem Header.getLast?_numbers (h : Header) : h.numbers.getLast? = some ')' := by
  simp [Header.numbers, List.getLast?_append, List.getLast?_cons]

/-- Each number stands between its separators, and blanks may stand before the parenthesis. -/
theorem readHeader_of_items {line x first transitions states : List Char} {h : Header}
    (hline : trim line = "des".toList ++
      (x ++ '(' :: (first ++ ',' :: (transitions ++ ',' :: (states ++ [')'])))))
    (hx : ∀ c ∈ x, isBlank c = true) (hcomma : ',' ∉ first) (hcomma' : ',' ∉ transitions)
    (hfirst : readNumber .firstState first = .ok h.first)
    (htransitions : readNumber .transitionCount transitions = .ok h.transitions)
    (hstates : readNumber .stateCount states = .ok h.states) (hlt : h.first < h.states) :
    readHeader line = .ok h := by
  have hopening : trim (x ++ '(' :: (first ++ ',' :: (transitions ++ ',' :: (states ++ [')'])))) =
      ['('] ++ (first ++ ',' :: (transitions ++ ',' :: (states ++ [')']))) := by
    rw [trim_blank_append hx]
    apply trim_of_ends (d := ')') rfl (by decide) _ (by decide)
    simp [List.getLast?_append, List.getLast?_cons]
  have hcut : cut? ',' (first ++ ',' :: (transitions ++ ',' :: (states ++ [')']))) =
      some (first, transitions ++ ',' :: (states ++ [')'])) :=
    cut?_eq_some_iff.mpr ⟨rfl, hcomma⟩
  have hcut' : cut? ',' (transitions ++ ',' :: (states ++ [')'])) =
      some (transitions, states ++ [')']) :=
    cut?_eq_some_iff.mpr ⟨rfl, hcomma'⟩
  have hright := trimRight_append (c := ')') (by decide) states
  unfold readHeader
  simp only [hline, after?_eq_some_iff.mpr rfl, hopening, hcut, hcut', hright,
    before?_eq_some_iff.mpr rfl, expect, hfirst, htransitions, hstates, hlt, if_true,
    bind, Except.bind, pure, Except.pure]

theorem readHeader_line {h : Header} (hfirst : h.first < h.states)
    (htransitions : h.transitions < wordBound) (hstates : h.states < wordBound) :
    readHeader h.line = .ok h := by
  have hcomma : ∀ n, ',' ∉ numeral n := numeral_not_mem (by decide)
  have hlast : h.line.getLast? = some ')' := by
    simp [Header.line, List.getLast?_cons, Header.getLast?_numbers]
  have hline : trim h.line = "des".toList ++ ([' '] ++ '(' :: h.numbers) :=
    trim_of_ends (c := 'd') rfl (by decide) hlast (by decide)
  have hspace : ∀ c ∈ [' '], isBlank c = true := List.forall_mem_singleton.mpr rfl
  apply readHeader_of_items hline hspace (hcomma _) (hcomma _) _ _ _ hfirst
  · exact readNumber_numeral (Nat.lt_trans hfirst hstates) _
  · exact readNumber_numeral htransitions _
  · exact readNumber_numeral hstates _

theorem readHeader_eq_ok {line : List Char} {h : Header} (hread : readHeader line = .ok h) :
    h.first < h.states ∧ h.transitions < wordBound ∧ h.states < wordBound := by
  unfold readHeader at hread
  obtain ⟨_, _, hread⟩ := bind_eq_ok.mp hread
  obtain ⟨_, _, hread⟩ := bind_eq_ok.mp hread
  obtain ⟨⟨_, _⟩, _, hread⟩ := bind_eq_ok.mp hread
  obtain ⟨⟨_, _⟩, _, hread⟩ := bind_eq_ok.mp hread
  obtain ⟨_, _, hread⟩ := bind_eq_ok.mp hread
  obtain ⟨first, _, hread⟩ := bind_eq_ok.mp hread
  obtain ⟨transitions, htransitions, hread⟩ := bind_eq_ok.mp hread
  obtain ⟨states, hstates, hread⟩ := bind_eq_ok.mp hread
  split at hread
  · next hfirst =>
    obtain rfl := Except.ok.inj hread
    exact ⟨hfirst, (readNumeral_eq_ok (readNumber_eq_ok.mp htransitions)).1,
      (readNumeral_eq_ok (readNumber_eq_ok.mp hstates)).1⟩
  · exact absurd hread throw_ne_ok

section Edge

variable {states : Nat} {line source label s s' : List Char} {e : Edge}

def edgeLine (e : Edge) : List Char :=
  '(' :: (numeral e.source ++ ',' :: '"' :: (e.label.toList ++ '"' :: ',' ::
    (numeral e.target ++ [')'])))

/-- The edge, from the text of its source, its label and what follows the label. -/
def edgeFrom (states : Nat) (source : List Char) (p : List Char × List Char) :
    Except FormatError Edge := do
  let target ← expect .noEnd (before? ')' (trimRight p.2))
  let source ← readNumber .start source
  let target ← readNumber .finish target
  if states ≤ source then throw (.startMissing source)
  if states ≤ target then throw (.finishMissing target)
  pure ⟨source, String.ofList (trim p.1), target⟩

theorem readEdge_of_start (hline : trim line = '(' :: (source ++ ',' :: s))
    (hsource : ',' ∉ source) :
    readEdge states line = readLabel s >>= edgeFrom states source := by
  have hopening : expect .noOpening (after? ['('] (trim line)) = .ok (source ++ ',' :: s) :=
    expect_eq_ok.mpr (after?_eq_some_iff.mpr hline)
  have hcut : expect .noStart (cut? ',' (source ++ ',' :: s)) = .ok (source, s) :=
    expect_eq_ok.mpr (cut?_eq_some_iff.mpr ⟨rfl, hsource⟩)
  exact (bind_of_ok hopening _).trans (bind_of_ok hcut _)

theorem readEdge_eq_ok (h : readEdge states line = .ok e) : ∃ source s label s',
    trim line = '(' :: (source ++ ',' :: s) ∧ readLabel s = .ok (label, s') ∧
      edgeFrom states source (label, s') = .ok e := by
  have hread := h
  unfold readEdge at hread
  obtain ⟨t, hopening, hread⟩ := bind_eq_ok.mp hread
  obtain ⟨⟨source, s⟩, hcut, -⟩ := bind_eq_ok.mp hread
  obtain ⟨rfl, hsource⟩ := cut?_eq_some_iff.mp (expect_eq_ok.mp hcut)
  have hline := after?_eq_some_iff.mp (expect_eq_ok.mp hopening)
  rw [readEdge_of_start hline hsource] at h
  obtain ⟨⟨label, s'⟩, hlabel, hedge⟩ := bind_eq_ok.mp h
  exact ⟨source, s, label, s', hline, hlabel, hedge⟩

/-- A quote behind the label would stand in the number of the target. -/
theorem edgeFrom_eq_ok (h : edgeFrom states source (label, s) = .ok e) :
    e.source < states ∧ e.target < states ∧ e.label = String.ofList (trim label) ∧ '"' ∉ s := by
  unfold edgeFrom at h
  obtain ⟨target, htarget, h⟩ := bind_eq_ok.mp h
  obtain ⟨m, _, h⟩ := bind_eq_ok.mp h
  obtain ⟨n, hn, h⟩ := bind_eq_ok.mp h
  have hquote : '"' ∉ s := by
    intro hmem
    have hright := before?_eq_some_iff.mp (expect_eq_ok.mp htarget)
    have hmem' : '"' ∈ target ++ [')'] := hright ▸ mem_trimRight (by decide) hmem
    have hmem'' : '"' ∈ trim target := mem_trim (by decide) (by simpa using hmem')
    have hdigit := (readNumeral_eq_ok (readNumber_eq_ok.mp hn)).2 _ hmem''
    revert hdigit
    decide
  obtain ⟨hsource, h⟩ := guarded_eq_ok.mp h
  obtain ⟨htarget, h⟩ := guarded_eq_ok.mp h
  obtain rfl := Except.ok.inj h
  exact ⟨Nat.lt_of_not_le hsource, Nat.lt_of_not_le htarget, rfl, hquote⟩

theorem readLabel_eq_ok (h : readLabel s = .ok (label, s')) :
    label ⊆ s ∧ ('"' ∉ label ∨ ',' ∉ label) := by
  unfold readLabel at h
  split at h
  · next t ht =>
    obtain ⟨⟨label, t'⟩, hcut, h⟩ := bind_eq_ok.mp h
    obtain ⟨t'', hcomma, h⟩ := bind_eq_ok.mp h
    obtain ⟨rfl, rfl⟩ := Prod.mk.inj (Except.ok.inj h)
    obtain ⟨rfl, hquote⟩ := cut?_eq_some_iff.mp (expect_eq_ok.mp hcut)
    refine ⟨?_, Or.inl hquote⟩
    intro c hc
    apply trimLeft_subset s
    rw [after?_eq_some_iff.mp ht]
    simp [hc]
  · obtain ⟨rfl, hcomma⟩ := cut?_eq_some_iff.mp (expect_eq_ok.mp h)
    exact ⟨by simp, Or.inr hcomma⟩

/-- What holds of an edge that has been read. Quotes get into a label only where none stand around
it, and there the first comma ends it. -/
structure EdgeRead (states : Nat) (e : Edge) : Prop where
  source_lt : e.source < states
  target_lt : e.target < states
  trimmed : trim e.label.toList = e.label.toList
  newline : '\n' ∉ e.label.toList
  quote_or_comma : '"' ∉ e.label.toList ∨ ',' ∉ e.label.toList

theorem readEdge_edgeRead (hline : '\n' ∉ line) (h : readEdge states line = .ok e) :
    EdgeRead states e := by
  obtain ⟨source, s, label, s', htext, hlabel, hedge⟩ := readEdge_eq_ok h
  obtain ⟨hsource, htarget, heq, -⟩ := edgeFrom_eq_ok hedge
  obtain ⟨hsubset, hquote⟩ := readLabel_eq_ok hlabel
  have hchars : e.label.toList = trim label := by rw [heq, String.toList_ofList]
  have hlines : s ⊆ line := by
    intro c hc
    apply trim_subset line
    rw [htext]
    simp [hc]
  refine ⟨hsource, htarget, ?_, ?_, ?_⟩
  · rw [hchars, trim_trim]
  · rw [hchars]
    exact fun hc => hline (hlines (hsubset (trim_subset label hc)))
  · rw [hchars]
    exact hquote.imp (fun h hc => h (trim_subset label hc)) fun h hc => h (trim_subset label hc)

theorem trim_edgeLine (e : Edge) : trim (edgeLine e) = edgeLine e := by
  have hlast : (edgeLine e).getLast? = some ')' := by
    simp [edgeLine, List.getLast?_cons, List.getLast?_append]
  exact trim_of_ends rfl (by decide) hlast (by decide)

theorem readEdge_line (states : Nat) (e : Edge) : readEdge states (edgeLine e) =
    readLabel ('"' :: (e.label.toList ++ '"' :: ',' :: (numeral e.target ++ [')']))) >>=
      edgeFrom states (numeral e.source) :=
  readEdge_of_start (trim_edgeLine e) (numeral_not_mem (by decide) _)

theorem readLabel_of_quote (htext : trimLeft s = '"' :: (label ++ '"' :: s'))
    (hlabel : '"' ∉ label) :
    readLabel s = expect .noLabelEnd (after? [','] (trimLeft s')) >>= fun s => pure (label, s) := by
  have hopening : after? ['"'] (trimLeft s) = some (label ++ '"' :: s') :=
    after?_eq_some_iff.mpr htext
  have hcut : expect .unclosedLabel (cut? '"' (label ++ '"' :: s')) = .ok (label, s') :=
    expect_eq_ok.mpr (cut?_eq_some_iff.mpr ⟨rfl, hlabel⟩)
  unfold readLabel
  rw [hopening]
  exact bind_of_ok hcut _

theorem readLabel_quoted (hlabel : '"' ∉ label) (s : List Char) :
    readLabel ('"' :: (label ++ '"' :: s)) =
      expect .noLabelEnd (after? [','] (trimLeft s)) >>= fun s => pure (label, s) :=
  readLabel_of_quote (Reader.trimLeft_cons (by decide)) hlabel

theorem readLabel_of_comma (htext : trimLeft s = '"' :: (label ++ '"' :: s'))
    (hlabel : '"' ∉ label) {rest : List Char} (hcomma : trimLeft s' = ',' :: rest) :
    readLabel s = .ok (label, rest) := by
  have hafter : expect .noLabelEnd (after? [','] (trimLeft s')) = .ok rest :=
    expect_eq_ok.mpr (after?_eq_some_iff.mpr hcomma)
  exact (readLabel_of_quote htext hlabel).trans (bind_of_ok hafter _)

/-- An edge is read from the text of its source, its label and its target. -/
theorem readEdge_of_items {target : List Char} (hline : trim line = '(' :: (source ++ ',' :: s))
    (hcomma : ',' ∉ source) (hlabel : readLabel s = .ok (label, target ++ [')']))
    (htrim : trim label = e.label.toList) (hsource : readNumber .start source = .ok e.source)
    (htarget : readNumber .finish target = .ok e.target) (hsource_lt : e.source < states)
    (htarget_lt : e.target < states) : readEdge states line = .ok e := by
  have hend : expect .noEnd (before? ')' (trimRight (target ++ [')']))) = .ok target := by
    rw [trimRight_append (by decide)]
    exact expect_eq_ok.mpr (before?_eq_some_iff.mpr rfl)
  rw [readEdge_of_start hline hcomma, bind_of_ok hlabel, edgeFrom, bind_of_ok hend,
    bind_of_ok hsource, bind_of_ok htarget]
  apply guarded_eq_ok.mpr ⟨Nat.not_le.mpr hsource_lt, ?_⟩
  apply guarded_eq_ok.mpr ⟨Nat.not_le.mpr htarget_lt, ?_⟩
  rw [htrim, String.ofList_toList]
  rfl

theorem readEdge_edgeLine (hstates : states < wordBound) (he : EdgeRead states e)
    (hquote : '"' ∉ e.label.toList) : readEdge states (edgeLine e) = .ok e := by
  have hcomma : trimLeft (',' :: (numeral e.target ++ [')'])) = ',' :: (numeral e.target ++ [')']) :=
    Reader.trimLeft_cons (by decide)
  have hlabel := readLabel_of_comma (Reader.trimLeft_cons (by decide)) hquote hcomma
  exact readEdge_of_items (trim_edgeLine e) (numeral_not_mem (by decide) _) hlabel he.trimmed
    (readNumber_numeral (Nat.lt_trans he.source_lt hstates) _)
    (readNumber_numeral (Nat.lt_trans he.target_lt hstates) _) he.source_lt he.target_lt

/-- A quote in a label ends it, and what follows the quote is no number. -/
theorem readEdge_ne_ok (hquote : '"' ∈ e.label.toList) (e' : Edge) :
    readEdge states (edgeLine e) ≠ .ok e' := by
  intro h
  obtain ⟨x, y, hlabel, hx⟩ := List.eq_append_cons_of_mem hquote
  rw [readEdge_line, hlabel] at h
  simp only [List.append_assoc, List.cons_append] at h
  rw [readLabel_quoted hx] at h
  obtain ⟨⟨label, s⟩, hread, hedge⟩ := bind_eq_ok.mp h
  obtain ⟨s', hcomma, hread⟩ := bind_eq_ok.mp hread
  obtain ⟨-, rfl⟩ := Prod.mk.inj (Except.ok.inj hread)
  have htext := after?_eq_some_iff.mp (expect_eq_ok.mp hcomma)
  have hmem : '"' ∈ [','] ++ s' := htext ▸ mem_trimLeft (by decide) (by simp)
  exact (edgeFrom_eq_ok hedge).2.2.2 (by simpa using hmem)

theorem readEdge_eq_error (hquote : '"' ∈ e.label.toList) (hcomma : ',' ∉ e.label.toList) :
    readEdge states (edgeLine e) = .error .noLabelEnd := by
  obtain ⟨x, y, hlabel, hx⟩ := List.eq_append_cons_of_mem hquote
  have hnone : after? [','] (trimLeft (y ++ '"' :: ',' :: (numeral e.target ++ [')']))) = none := by
    rw [trimLeft_append (by decide), Option.eq_none_iff_forall_ne_some]
    intro s hs
    have htext := after?_eq_some_iff.mp hs
    cases hy : trimLeft y with
    | nil => simp [hy] at htext
    | cons c t =>
      rw [hy] at htext
      obtain ⟨rfl, -⟩ := List.cons.inj htext
      have hmem : ',' ∈ y := trimLeft_subset y (by simp [hy])
      exact hcomma (by simp [hlabel, hmem])
  rw [readEdge_line, hlabel]
  simp only [List.append_assoc, List.cons_append]
  rw [readLabel_quoted hx, hnone]
  rfl

end Edge

section Text

variable {l : Lts} {t : String}

def headerOf (l : Lts) : Header := ⟨l.first, l.transitionCount, l.stateCount⟩

theorem renderHeader_eq (l : Lts) : renderHeader l = (headerOf l).line ++ ['\n'] := by
  have htext : ∀ a b c : List Char,
      "des (".toList ++ a ++ ',' :: b ++ ',' :: c ++ ")\n".toList =
        "des".toList ++ ' ' :: '(' :: (a ++ ',' :: (b ++ ',' :: (c ++ [')']))) ++ ['\n'] := by
    simp
  exact htext _ _ _

theorem renderEdge_eq : renderEdge = fun e => edgeLine e ++ ['\n'] := by
  funext e
  simp [renderEdge, edgeLine]

theorem render_eq (l : Lts) :
    render l = ((headerOf l).line :: l.edges.map edgeLine).flatMap (· ++ ['\n']) := by
  rw [render, renderHeader_eq, renderEdge_eq, List.flatMap_cons, List.flatMap_map]

theorem content_render (h : ∀ e ∈ l.edges, '\n' ∉ e.label.toList) :
    content (render l) = (headerOf l).line :: l.edges.map edgeLine := by
  have hnumeral : ∀ n, '\n' ∉ numeral n := numeral_not_mem (by decide)
  have hheader : '\n' ∉ (headerOf l).line := by simp [Header.line, Header.numbers, hnumeral]
  have hlines : ∀ line ∈ (headerOf l).line :: l.edges.map edgeLine, '\n' ∉ line := by
    intro line hline
    rcases List.mem_cons.mp hline with rfl | hline
    · exact hheader
    · obtain ⟨e, he, rfl⟩ := List.mem_map.mp hline
      simp [edgeLine, hnumeral, h e he]
  have hfull : ∀ line ∈ (headerOf l).line :: l.edges.map edgeLine, trim line ≠ [] := by
    intro line hline
    have hopening : '(' ∈ line := by
      rcases List.mem_cons.mp hline with rfl | hline
      · simp [Header.line]
      · obtain ⟨e, he, rfl⟩ := List.mem_map.mp hline
        exact List.mem_cons_self
    exact List.ne_nil_of_mem (mem_trim (by decide) hopening)
  rw [content, render_eq, lines_flatMap hlines, List.filter_append, List.filter_eq_self.mpr]
  · simp [trim, trimLeft, trimRight]
  · simpa using hfull

/-- What holds of a system that has been read. -/
structure Readable (l : Lts) : Prop where
  first_lt : l.first < l.stateCount
  transitionCount_lt : l.transitionCount < wordBound
  stateCount_lt : l.stateCount < wordBound
  edges : ∀ e ∈ l.edges, EdgeRead l.stateCount e

theorem readLines_eq_ok {lines : List (List Char)} (h : readLines lines = .ok l) :
    ∃ header body edges hd, lines = header :: body ∧ readHeader header = .ok hd ∧
      body.mapM (readEdge hd.states) = .ok edges ∧ edges.length = hd.transitions ∧
      l = Lts.collect hd.first hd.states edges := by
  cases lines with
  | nil => simp [readLines] at h
  | cons header body =>
    obtain ⟨hd, hheader, h⟩ := bind_eq_ok.mp h
    obtain ⟨edges, hedges, h⟩ := bind_eq_ok.mp h
    split at h
    · next hlength =>
      obtain rfl := Except.ok.inj h
      exact ⟨header, body, edges, hd, rfl, hheader, hedges, hlength, rfl⟩
    · exact absurd h throw_ne_ok

theorem edgeRead_of_mapM {states : Nat} {body : List (List Char)} {edges : List Edge}
    (hbody : ∀ line ∈ body, '\n' ∉ line) (h : body.mapM (readEdge states) = .ok edges) :
    ∀ e ∈ edges, EdgeRead states e := by
  intro e he
  obtain ⟨line, hline, hread⟩ := exists_right_of_forall₂ (mapM_eq_ok_iff.mp h) he
  exact readEdge_edgeRead (hbody line hline) hread

theorem readLines_readable {content : List (List Char)} (hcontent : ∀ line ∈ content, '\n' ∉ line)
    (h : readLines content = .ok l) : Readable l ∧ announced? content = some l.stateCount := by
  obtain ⟨header, body, edges, hd, rfl, hheader, hedges, hlength, rfl⟩ := readLines_eq_ok h
  obtain ⟨hfirst, htransitions, hstates⟩ := readHeader_eq_ok hheader
  have hread : ∀ e ∈ edges, EdgeRead hd.states e :=
    edgeRead_of_mapM (fun line hline => hcontent line (List.mem_cons_of_mem _ hline)) hedges
  have hsource : ∀ e ∈ edges, e.source < hd.states := fun e he => (hread e he).source_lt
  have hcount := Lts.stateCount_collect hd.first hd.states edges
  refine ⟨⟨?_, ?_, ?_, ?_⟩, ?_⟩
  · rwa [hcount]
  · rwa [Lts.transitionCount_collect hsource, hlength]
  · rwa [hcount]
  · intro e he
    rw [hcount]
    exact hread e ((Lts.step_collect hsource).mp (Lts.mem_edges.mp he))
  · simp [announced?, hheader, Except.toOption]

theorem newline_not_mem_content {text line : List Char} (h : line ∈ content text) : '\n' ∉ line :=
  newline_not_mem_lines (List.mem_of_mem_filter h)

theorem parse_readable (h : Lts.parse t = .ok l) :
    Readable l ∧ announced? (content t.toList) = some l.stateCount :=
  readLines_readable (fun _ hline => newline_not_mem_content hline) h

theorem Readable.content_text (h : Readable l) :
    content l.text.toList = (headerOf l).line :: l.edges.map edgeLine := by
  rw [Lts.text, String.toList_ofList]
  exact content_render fun e he => (h.edges e he).newline

theorem Readable.readHeader_line (h : Readable l) :
    readHeader (headerOf l).line = .ok (headerOf l) :=
  Aldebaran.readHeader_line h.first_lt h.transitionCount_lt h.stateCount_lt

theorem Readable.parse_text_eq (h : Readable l) :
    Lts.parse l.text = (l.edges.mapM fun e => readEdge l.stateCount (edgeLine e)) >>= fun edges =>
      if edges.length = l.transitionCount then pure (Lts.collect l.first l.stateCount edges)
      else throw (.wrongCount edges.length l.transitionCount) := by
  rw [Lts.parse, read, h.content_text, readLines, bind_of_ok h.readHeader_line, List.mapM_map]
  rfl

theorem Readable.parse_text_of_unquoted (h : Readable l)
    (hquote : ∀ e ∈ l.edges, '"' ∉ e.label.toList) : Lts.parse l.text = .ok l := by
  have hedges : (l.edges.mapM fun e => readEdge l.stateCount (edgeLine e)) = .ok l.edges :=
    mapM_eq_ok_iff.mpr (List.forall₂_same.mpr
      fun e he => readEdge_edgeLine h.stateCount_lt (h.edges e he) (hquote e he))
  rw [h.parse_text_eq, bind_of_ok hedges, if_pos l.length_edges, l.collect_edges]
  rfl

theorem Readable.parse_text_of_quoted (h : Readable l)
    (hquote : ∃ e ∈ l.edges, '"' ∈ e.label.toList) : Lts.parse l.text = .error .noLabelEnd := by
  have hedges : (l.edges.mapM fun e => readEdge l.stateCount (edgeLine e)) =
      .error .noLabelEnd := by
    have hcomma : ∀ e ∈ l.edges, '"' ∈ e.label.toList → ',' ∉ e.label.toList :=
      fun e he hmem => (h.edges e he).quote_or_comma.resolve_left fun hnot => hnot hmem
    apply mapM_eq_error
    · intro e he
      by_cases hmem : '"' ∈ e.label.toList
      · exact Or.inr (readEdge_eq_error hmem (hcomma e he hmem))
      · exact Or.inl ⟨e, readEdge_edgeLine h.stateCount_lt (h.edges e he) hmem⟩
    · obtain ⟨e, he, hmem⟩ := hquote
      exact ⟨e, he, readEdge_eq_error hmem (hcomma e he hmem)⟩
  rw [h.parse_text_eq, hedges]
  rfl

end Text

end Aldebaran

namespace Lts

variable {l : Lts} {t : String}

/-- Room is made for the states before anything is read of the transitions. -/
theorem load_value (t : String) : (load t).value =
    (Aldebaran.announced? (Aldebaran.content t.toList)).elim (.ok (parse t)) fun states =>
      (Table.checkedRows states).map fun _ => parse t := by
  dsimp only [load, parse, Aldebaran.read]
  cases Aldebaran.announced? (Aldebaran.content t.toList) with
  | none => cases Aldebaran.readLines (Aldebaran.content t.toList) <;> rfl
  | some states =>
    dsimp only [Option.forM, Option.elim]
    cases Table.checkedRows states <;>
      cases Aldebaran.readLines (Aldebaran.content t.toList) <;> rfl

theorem load_eq_ok_iff : (load t).value = .ok (.ok l) ↔
    l.stateCount ≤ Table.rowBound ∧ parse t = .ok l := by
  have hannounced : parse t = .ok l →
      Aldebaran.announced? (Aldebaran.content t.toList) = some l.stateCount :=
    fun hparse => (Aldebaran.parse_readable hparse).2
  rw [load_value]
  constructor
  · intro h
    cases hstates : Aldebaran.announced? (Aldebaran.content t.toList) with
    | none =>
      rw [hstates] at h hannounced
      have hparse : parse t = .ok l := Except.ok.inj h
      exact absurd (hannounced hparse) (by simp)
    | some states =>
      rw [hstates] at h hannounced
      by_cases hrows : states ≤ Table.rowBound
      · have hparse : parse t = .ok l := by simpa [Table.checkedRows, hrows, Except.map] using h
        obtain rfl := Option.some.inj (hannounced hparse)
        exact ⟨hrows, hparse⟩
      · simp [Table.checkedRows, hrows, Except.map] at h
  · rintro ⟨hrows, hparse⟩
    simp [hannounced hparse, Table.checkedRows, hrows, hparse, Except.map]

theorem load_text (h : Aldebaran.Readable l) (hrows : l.stateCount ≤ Table.rowBound) :
    (load l.text).value = .ok (parse l.text) := by
  have hannounced : Aldebaran.announced? (Aldebaran.content l.text.toList) =
      some l.stateCount := by
    rw [h.content_text, Aldebaran.announced?, h.readHeader_line]
    rfl
  rw [load_value, hannounced]
  simp [Table.checkedRows, hrows, Except.map]

/-- The first state and all targets exist, and labels have no blanks around them, no quotes and no
line feeds. -/
structure Writable (l : Lts) : Prop where
  first_lt : l.first < l.stateCount
  inRange : l.InRange
  trimmed : ∀ s a t, l.Step s a t → trim a.toList = a.toList
  quote : ∀ s a t, l.Step s a t → '"' ∉ a.toList
  newline : ∀ s a t, l.Step s a t → '\n' ∉ a.toList

theorem writable_iff (l : Lts) : l.Writable ↔ l.first < l.stateCount ∧ ∀ e ∈ l.edges,
    e.target < l.stateCount ∧ trim e.label.toList = e.label.toList ∧ '"' ∉ e.label.toList ∧
      '\n' ∉ e.label.toList := by
  constructor
  · intro h
    refine ⟨h.first_lt, ?_⟩
    intro e he
    have hstep := mem_edges.mp he
    exact ⟨h.inRange _ _ _ hstep, h.trimmed _ _ _ hstep, h.quote _ _ _ hstep, h.newline _ _ _ hstep⟩
  · rintro ⟨hfirst, hedges⟩
    have hstep : ∀ s a t, l.Step s a t → _ := fun s a t h => hedges ⟨s, a, t⟩ (mem_edges.mpr h)
    exact ⟨hfirst, fun s a t h => (hstep s a t h).1, fun s a t h => (hstep s a t h).2.1,
      fun s a t h => (hstep s a t h).2.2.1, fun s a t h => (hstep s a t h).2.2.2⟩

instance (l : Lts) : Decidable l.Writable := decidable_of_iff _ l.writable_iff.symm

theorem Step.source_lt {s t : StateId} {a : String} (h : l.Step s a t) : s < l.stateCount := by
  obtain ⟨row, hrow, -⟩ := h
  exact (Array.getElem?_eq_some_iff.mp hrow).1

theorem Writable.readable (h : l.Writable) (hstates : l.stateCount < wordBound)
    (htransitions : l.transitionCount < wordBound) : Aldebaran.Readable l := by
  refine ⟨h.first_lt, htransitions, hstates, ?_⟩
  intro e he
  have hstep := mem_edges.mp he
  exact ⟨hstep.source_lt, h.inRange _ _ _ hstep, h.trimmed _ _ _ hstep, h.newline _ _ _ hstep,
    Or.inl (h.quote _ _ _ hstep)⟩

theorem writable_of_parse (h : parse l.text = .ok l) : l.Writable := by
  obtain ⟨hread, -⟩ := Aldebaran.parse_readable h
  have hedge : ∀ s a t, l.Step s a t → Aldebaran.EdgeRead l.stateCount ⟨s, a, t⟩ :=
    fun s a t hstep => hread.edges ⟨s, a, t⟩ (mem_edges.mpr hstep)
  refine ⟨hread.first_lt, ?_, ?_, ?_, ?_⟩
  · exact fun s a t hstep => (hedge s a t hstep).target_lt
  · exact fun s a t hstep => (hedge s a t hstep).trimmed
  · intro s a t hstep hquote
    rw [hread.parse_text_eq] at h
    obtain ⟨edges, hedges, -⟩ := bind_eq_ok.mp h
    obtain ⟨e, -, he⟩ := exists_left_of_forall₂ (mapM_eq_ok_iff.mp hedges)
      (mem_edges.mpr hstep : ⟨s, a, t⟩ ∈ l.edges)
    exact Aldebaran.readEdge_ne_ok hquote e he
  · exact fun s a t hstep => (hedge s a t hstep).newline

/-- A system is read back from its text just when the format has room for it. -/
theorem parse_text_iff_writable (hstates : l.stateCount < wordBound)
    (htransitions : l.transitionCount < wordBound) :
    (parse l.text = .ok l ↔ l.Writable) ∧
    (l.stateCount ≤ Table.rowBound → ((load l.text).value = .ok (.ok l) ↔ l.Writable)) := by
  have hparse : parse l.text = .ok l ↔ l.Writable := by
    constructor
    · exact writable_of_parse
    · intro h
      apply (h.readable hstates htransitions).parse_text_of_unquoted
      exact fun e he => h.quote _ _ _ (mem_edges.mp he)
  refine ⟨hparse, ?_⟩
  intro hrows
  rw [load_eq_ok_iff, hparse]
  exact and_iff_right hrows

/-- Labels that look like the end of a line, that are empty, and that have a carriage return in
them. -/
def imitating : Lts := ⟨1, #[[⟨"a,0)", 1⟩, ⟨"", 0⟩], [⟨"(1,b\rc", 0⟩, ⟨tau, 1⟩]]⟩

theorem parse_text_iff_writable_imitating :
    imitating.stateCount < wordBound ∧ imitating.transitionCount < wordBound ∧
      imitating.stateCount ≤ Table.rowBound ∧ imitating.Writable ∧
      parse imitating.text = .ok imitating ∧
      (load imitating.text).value = .ok (.ok imitating) := by
  have hstates : imitating.stateCount < wordBound := by decide
  have htransitions : imitating.transitionCount < wordBound := by decide
  have hrows : imitating.stateCount ≤ Table.rowBound := by decide
  have hwritable : imitating.Writable := by decide +kernel
  obtain ⟨hparse, hload⟩ := parse_text_iff_writable hstates htransitions
  exact ⟨hstates, htransitions, hrows, hwritable, hparse.mpr hwritable, (hload hrows).mpr hwritable⟩

/-- A system that has been read is read back from its text unless some label has a quote in it. Then
the text is refused, for what stands behind that quote. -/
theorem load_text_of_load (h : (load t).value = .ok (.ok l)) :
    ((load l.text).value = .ok (.ok l) ↔ ∀ s a u, l.Step s a u → '"' ∉ a.toList) ∧
    ((∃ s a u, l.Step s a u ∧ '"' ∈ a.toList) →
      (load l.text).value = .ok (.error .noLabelEnd)) := by
  obtain ⟨hrows, hparse⟩ := load_eq_ok_iff.mp h
  have hread := (Aldebaran.parse_readable hparse).1
  have hquoted : (∃ s a u, l.Step s a u ∧ '"' ∈ a.toList) →
      (load l.text).value = .ok (.error .noLabelEnd) := by
    rintro ⟨s, a, u, hstep, hquote⟩
    rw [load_text hread hrows]
    exact congrArg _ (hread.parse_text_of_quoted ⟨⟨s, a, u⟩, mem_edges.mpr hstep, hquote⟩)
  refine ⟨⟨?_, ?_⟩, hquoted⟩
  · intro hload s a u hstep hquote
    rw [hquoted ⟨s, a, u, hstep, hquote⟩] at hload
    simp at hload
  · intro hquote
    rw [load_text hread hrows]
    apply congrArg
    exact hread.parse_text_of_unquoted fun e he => hquote _ _ _ (mem_edges.mp he)

/-- A text with blank lines, blanks around items, a sign, a leading zero and labels without
quotes. -/
def looseText : String :=
  " des(1, 4,2 )\n\n( 0 , \"a,0)\" ,+1)\n(0,,0)\r\n(1,\"(1,b\rc\",00)\n(1, tau ,1)"

theorem load_text_of_load_imitating :
    (load looseText).value = .ok (.ok imitating) ∧
      (load imitating.text).value = .ok (.ok imitating) := by
  have hload : (load looseText).value = .ok (.ok imitating) := by decide +kernel
  refine ⟨hload, (load_text_of_load hload).1.mpr ?_⟩
  have hquote : ∀ e ∈ imitating.edges, '"' ∉ e.label.toList := by decide
  exact fun s a u hstep => hquote ⟨s, a, u⟩ (mem_edges.mpr hstep)

/-- The label is read without quotes around it, printed with them, and then ends too early. -/
theorem load_text_quote :
    ∃ l, (load "des (0,1,1)\n(0,a\"b,0)\n").value = .ok (.ok l) ∧
      l.text = "des (0,1,1)\n(0,\"a\"b\",0)\n" ∧
      (load l.text).value = .ok (.error .noLabelEnd) := by
  refine ⟨⟨0, #[[⟨"a\"b", 0⟩]]⟩, ?_⟩
  decide +kernel

end Lts

end ProcessLogic
