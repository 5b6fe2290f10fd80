import ProcessLogic.Command.Random
import ProcessLogic.Proofs.Lts.Aldebaran

/-!
# Random systems

Whichever numbers are drawn, a random system has as many states and distinct transitions as were
asked for. Its labels are numerals, so it is read back from its text. The command checks its
arguments before anything is drawn, but lets a product of states and labels pass that does not fit
into a word, and then the draws are refused.
-/

set_option autoImplicit false

namespace ProcessLogic

open Text

theorem Source.below_lt {n m fuel : Nat} {s s' : Source} (hn : 0 < n)
    (h : Source.below n fuel s = .ok (m, s')) : m < n := by
  induction fuel generalizing s with
  | zero => simp [Source.below] at h
  | succ fuel ih =>
    rw [Source.below] at h
    obtain ⟨⟨w, t⟩, -, h⟩ := bind_eq_ok.mp h
    dsimp only at h
    split at h
    · obtain ⟨rfl, -⟩ := Prod.mk.inj (Except.ok.inj h)
      have hword : w.toNat < wordBound := w.toNat_lt
      exact Nat.div_lt_of_lt_mul (Nat.mul_lt_mul_of_pos_right hword hn)
    · exact ih h

namespace Lts

section

variable {σ : Type} {draw : Nat → σ → Except Fault (Nat × σ)} {rounds states labels count : Nat}
  {source source' : σ}

/-- What holds of the pairs of label and target drawn so far. -/
structure Drawn (states labels : Nat) (seen : Numbering (Nat × Nat)) : Prop where
  filed : seen.Filed
  nodup : seen.toList.Nodup
  lt : ∀ p ∈ seen.items, p.1 < labels ∧ p.2 < states

theorem drawn_empty : Drawn states labels {} :=
  ⟨Numbering.filed_empty, List.nodup_nil, fun _ hp => absurd hp (Array.not_mem_empty _)⟩

theorem Drawn.insert {seen : Numbering (Nat × Nat)} {p : Nat × Nat} (h : Drawn states labels seen)
    (hp : p.1 < labels ∧ p.2 < states) : Drawn states labels (seen.insert p) := by
  refine ⟨Numbering.filed_insert h.filed p, Numbering.nodup_insert h.filed h.nodup, ?_⟩
  intro q hq
  rcases Numbering.mem_insert.mp hq with hq | rfl
  · exact h.lt q hq
  · exact hp

/-- What was asked of the transitions of a state. -/
structure Requested (states labels count : Nat) (row : List Transition) : Prop where
  length_eq : row.length = count
  nodup : row.Nodup
  target_lt : ∀ t ∈ row, t.target < states
  label_eq : ∀ t ∈ row, ∃ n, n < labels ∧ t.label = toString n

/-- Different numbers have different numerals, so distinct pairs give distinct transitions. -/
theorem Drawn.requested {seen : Numbering (Nat × Nat)} (h : Drawn states labels seen)
    (hsize : seen.size = count) : Requested states labels count (rowOf seen) := by
  refine ⟨by simpa [rowOf, Numbering.toList, Numbering.size] using hsize, ?_, ?_, ?_⟩
  · apply h.nodup.map
    intro p q hpq
    obtain ⟨hlabel, htarget⟩ := Transition.mk.inj hpq
    exact Prod.ext (Nat.repr_inj.mp hlabel) htarget
  · intro t ht
    obtain ⟨p, hp, rfl⟩ := List.mem_map.mp ht
    exact (h.lt p (Array.mem_toList_iff.mp hp)).2
  · intro t ht
    obtain ⟨p, hp, rfl⟩ := List.mem_map.mp ht
    exact ⟨p.1, (h.lt p (Array.mem_toList_iff.mp hp)).1, rfl⟩

section

-- numbers are drawn below the bound that is asked for
variable (hdraw : ∀ n s m s', 0 < n → draw n s = .ok (m, s') → m < n)
include hdraw

/-- Each round adds one pair at most. -/
theorem randomRow_drawn (hstates : 0 < states) (hcount : count ≤ states * labels)
    {fuel rest : Nat} {seen seen' : Numbering (Nat × Nat)}
    (h : randomRow draw states labels count fuel seen source = .ok (seen', rest, source'))
    (hseen : Drawn states labels seen) (hsize : seen.size ≤ count) :
    Drawn states labels seen' ∧ seen'.size = count ∧ count + rest ≤ seen.size + fuel := by
  induction fuel generalizing seen source with
  | zero => simp [randomRow] at h
  | succ fuel ih =>
    rw [randomRow] at h
    split at h
    · next hlt =>
      obtain ⟨⟨target, source₁⟩, htarget, h⟩ := bind_eq_ok.mp h
      obtain ⟨⟨label, source₂⟩, hlabel, h⟩ := bind_eq_ok.mp h
      have hlabels : 0 < labels := by
        rcases Nat.eq_zero_or_pos labels with rfl | hpos
        · omega
        · exact hpos
      have hpair : label < labels ∧ target < states :=
        ⟨hdraw _ _ _ _ hlabels hlabel, hdraw _ _ _ _ hstates htarget⟩
      have hinsert := seen.size_insert_le (label, target)
      obtain ⟨hdrawn, hfull, hrest⟩ := ih h (hseen.insert hpair) (by omega)
      exact ⟨hdrawn, hfull, by omega⟩
    · obtain ⟨rfl, hpair⟩ := Prod.mk.inj (Except.ok.inj h)
      obtain ⟨rfl, -⟩ := Prod.mk.inj hpair
      exact ⟨hseen, by omega, by omega⟩

theorem randomRows_requested (hstates : 0 < states) (hcount : count ≤ states * labels) {n : Nat}
    {rows rows' : Table (List Transition)}
    (h : randomRows draw states labels count n rounds rows source = .ok (rows', source'))
    (hrows : ∀ row ∈ rows, Requested states labels count row) :
    rows'.size = rows.size + n ∧ (∀ row ∈ rows', Requested states labels count row) ∧
      n * count ≤ rounds := by
  induction n generalizing rounds rows source with
  | zero =>
    obtain ⟨rfl, -⟩ := Prod.mk.inj (Except.ok.inj h)
    exact ⟨rfl, hrows, by simp⟩
  | succ n ih =>
    rw [randomRows] at h
    obtain ⟨⟨seen, rest, source₁⟩, hrow, h⟩ := bind_eq_ok.mp h
    obtain ⟨hdrawn, hsize, hrest⟩ :=
      randomRow_drawn hdraw hstates hcount hrow drawn_empty (Nat.zero_le _)
    have hpush : ∀ row ∈ rows.push (rowOf seen), Requested states labels count row := by
      intro row hmem
      rcases Array.mem_push.mp hmem with hmem | rfl
      · exact hrows row hmem
      · exact hdrawn.requested hsize
    obtain ⟨hsize', hall, hrounds⟩ := ih h hpush
    have hempty : ({} : Numbering (Nat × Nat)).size = 0 := rfl
    refine ⟨?_, hall, ?_⟩
    · rw [hsize', Array.size_push]
      omega
    · rw [Nat.succ_mul]
      omega

end

theorem checkCounts_eq_ok_iff : checkCounts states count labels = .ok () ↔
    0 < states ∧ states * labels < wordBound ∧ count ≤ states * labels := by
  unfold checkCounts
  split
  · next hstates => simp [hstates]
  · split
    · next hroom => simp [Nat.not_lt.mpr hroom]
    · split
      · next hcount => simp [Nat.not_le.mpr hcount]
      · simp only [true_iff]
        omega

theorem transitionCount_of_requested {l : Lts}
    (h : ∀ row ∈ l.rows, Requested states labels count row) :
    l.transitionCount = l.stateCount * count := by
  have hlengths : ∀ n ∈ l.rows.toList.map List.length, n = count := by
    intro n hn
    obtain ⟨row, hrow, rfl⟩ := List.mem_map.mp hn
    exact (h row (Array.mem_toList_iff.mp hrow)).length_eq
  rw [transitionCount, Table.total_eq_sum, List.sum_eq_card_nsmul _ count hlengths]
  simp [stateCount]

/-- Numerals have neither blanks nor quotes in them. -/
theorem writable_of_requested {l : Lts} (hfirst : l.first < l.stateCount)
    (h : ∀ row ∈ l.rows, Requested l.stateCount labels count row) : l.Writable := by
  have hlabel : ∀ s a t, l.Step s a t → ∃ n, a.toList = numeral n := by
    rintro s a t ⟨row, hrow, hmem⟩
    obtain ⟨n, -, heq⟩ := (h row (Array.mem_of_getElem? hrow)).label_eq _ hmem
    refine ⟨n, ?_⟩
    rw [show a = toString n from heq]
    simp [numeral, toString, Nat.repr]
  refine ⟨hfirst, ?_, ?_, ?_, ?_⟩
  · rintro s a t ⟨row, hrow, hmem⟩
    exact (h row (Array.mem_of_getElem? hrow)).target_lt _ hmem
  · intro s a t hstep
    obtain ⟨n, heq⟩ := hlabel s a t hstep
    rw [heq, trim_numeral]
  · intro s a t hstep
    obtain ⟨n, heq⟩ := hlabel s a t hstep
    rw [heq]
    exact numeral_not_mem (by decide) n
  · intro s a t hstep
    obtain ⟨n, heq⟩ := hlabel s a t hstep
    rw [heq]
    exact numeral_not_mem (by decide) n

/-- A random system is what was asked for, whichever numbers are drawn. It has no more transitions
than there are rounds, and it is read back from its text if their number fits into the header. -/
theorem randomFrom_requested (hdraw : ∀ n s m s', 0 < n → draw n s = .ok (m, s') → m < n) {l : Lts}
    (h : randomFrom draw rounds states count labels source = .ok (l, source')) :
    l.stateCount = states ∧ l.first = 0 ∧
    (∀ s, s < states → ∃ row, l.rows[s]? = some row ∧ Requested states labels count row) ∧
    states * count ≤ rounds ∧
    (states * count < wordBound → parse l.text = .ok l ∧ (load l.text).value = .ok (.ok l)) := by
  obtain ⟨_, hcounts, h⟩ := bind_eq_ok.mp h
  obtain ⟨_, hchecked, h⟩ := bind_eq_ok.mp h
  obtain ⟨⟨rows, source₁⟩, hrandom, h⟩ := bind_eq_ok.mp h
  obtain ⟨rfl, -⟩ := Prod.mk.inj (Except.ok.inj h)
  obtain ⟨hstates, -, hcount⟩ := checkCounts_eq_ok_iff.mp hcounts
  have hbound := Table.checkedRows_eq_ok_iff.mp hchecked
  obtain ⟨hsize, hrows, hroom⟩ := randomRows_requested hdraw hstates hcount hrandom
    fun row hrow => absurd hrow (Array.not_mem_empty row)
  have hstateCount : stateCount ⟨0, rows⟩ = states := hsize.trans (by simp)
  refine ⟨hstateCount, rfl, ?_, hroom, ?_⟩
  · intro s hs
    have hs : s < rows.size := Nat.lt_of_lt_of_eq hs hstateCount.symm
    exact ⟨rows[s], Array.getElem?_eq_getElem hs, hrows _ (Array.getElem_mem hs)⟩
  · intro hfits
    have hwritable : Writable ⟨0, rows⟩ :=
      writable_of_requested (hstateCount ▸ hstates) (hstateCount.symm ▸ hrows)
    have hword : stateCount ⟨0, rows⟩ < wordBound :=
      hstateCount ▸ Nat.lt_of_le_of_lt hbound (by decide)
    have htransitions : transitionCount ⟨0, rows⟩ < wordBound := by
      rw [transitionCount_of_requested hrows, hstateCount]
      exact hfits
    have hparse := (hwritable.readable hword htransitions).parse_text_of_unquoted fun e he =>
      hwritable.quote _ _ _ (mem_edges.mp he)
    exact ⟨hparse, load_eq_ok_iff.mpr ⟨hstateCount ▸ hbound, hparse⟩⟩

end

/-- Words that give one pair twice and one of which is rejected. -/
def scripted : Source where
  script := [0, 0, 0, 0, 0x8000000000000000, 0x4000000000000000, 0x8000000000000000,
    0x8000000000000000, 0xAAAAAAAAAAAAAAAB, 0, 0]
  seed := none

theorem randomFrom_requested_scripted : ∃ l source', random 2 2 3 scripted = .ok (l, source') ∧
    l = ⟨0, #[[⟨"0", 0⟩, ⟨"1", 1⟩], [⟨"2", 1⟩, ⟨"0", 0⟩]]⟩ ∧ source'.used = 11 ∧
    (∃ row, l.rows[1]? = some row ∧ Requested 2 3 2 row) ∧ 2 * 2 < wordBound ∧
    parse l.text = .ok l := by
  have hrandom : random 2 2 3 scripted =
      .ok (⟨0, #[[⟨"0", 0⟩, ⟨"1", 1⟩], [⟨"2", 1⟩, ⟨"0", 0⟩]]⟩, ⟨[], none, 11⟩) := by
    decide +kernel
  have hfits : 2 * 2 < wordBound := by decide
  obtain ⟨-, -, hrows, -, hread⟩ :=
    randomFrom_requested (fun _ _ _ _ hn => Source.below_lt hn) hrandom
  exact ⟨_, _, hrandom, rfl, rfl, hrows 1 (by decide), hfits, (hread hfits).1⟩

end Lts

namespace Random

variable {args : Arguments}

theorem checkArguments_eq_ok_iff : checkArguments args = .ok () ↔ 0 < args.states ∧
    (args.states * args.labels < wordBound → args.transitions ≤ args.states * args.labels) := by
  unfold checkArguments
  rw [guarded_eq_ok]
  apply and_congr Nat.pos_iff_ne_zero.symm
  dsimp only
  split
  · next h => simp [throw_ne_ok, h.1, Nat.not_le.mpr h.2]
  · next h => simpa [pure, Except.pure] using h

theorem generate_eq_error (h : checkArguments args = .ok ()) {fault : Fault}
    (hcounts : Lts.checkCounts args.states args.transitions args.labels = .error fault)
    (source : Source) : generate args source = .error (.fault fault) := by
  have hrandom : Lts.random args.states args.transitions args.labels source = .error fault := by
    rw [Lts.random, Lts.randomFrom, hcounts]
    rfl
  rw [generate, bind_of_ok h, hrandom]
  rfl

/-- Arguments that pass the check pass the one before the draws too, unless the product of states
and labels does not fit into a word. -/
theorem checkCounts_of_checkArguments (h : checkArguments args = .ok ()) :
    (Lts.checkCounts args.states args.transitions args.labels = .ok () ↔
      args.states * args.labels < wordBound) ∧
    (wordBound ≤ args.states * args.labels →
      Lts.checkCounts args.states args.transitions args.labels = .error .overflow ∧
      ∀ source, generate args source = .error (.fault .overflow)) := by
  obtain ⟨hstates, hcount⟩ := checkArguments_eq_ok_iff.mp h
  constructor
  · rw [Lts.checkCounts_eq_ok_iff]
    exact ⟨fun hcounts => hcounts.2.1, fun hroom => ⟨hstates, hroom, hcount hroom⟩⟩
  · intro hroom
    have hcounts : Lts.checkCounts args.states args.transitions args.labels = .error .overflow := by
      rw [Lts.checkCounts, if_neg (Nat.ne_of_gt hstates), if_pos hroom]
    exact ⟨hcounts, generate_eq_error h hcounts⟩

theorem checkCounts_of_checkArguments_full :
    checkArguments ⟨3, 6, 2⟩ = .ok () ∧ Lts.checkCounts 3 6 2 = .ok () ∧
    checkArguments ⟨2, 4, 0x8000000000000000⟩ = .ok () ∧
    ∀ source, generate ⟨2, 4, 0x8000000000000000⟩ source = .error (.fault .overflow) := by
  have hfull : checkArguments ⟨3, 6, 2⟩ = .ok () := by decide
  have hhuge : checkArguments ⟨2, 4, 0x8000000000000000⟩ = .ok () := by decide
  exact ⟨hfull, (checkCounts_of_checkArguments hfull).1.mpr (by decide), hhuge,
    ((checkCounts_of_checkArguments hhuge).2 (by decide)).2⟩

/-- Two states can have four transitions each, but the product of states and labels is no word. -/
theorem checkCounts_overflow : checkArguments ⟨2, 4, 0x8000000000000000⟩ = .ok () ∧
    Lts.checkCounts 2 4 0x8000000000000000 = .error .overflow ∧
    ∀ source, Lts.random 2 4 0x8000000000000000 source = .error .overflow :=
  ⟨by decide, by decide, fun _ => rfl⟩

end Random

end ProcessLogic
