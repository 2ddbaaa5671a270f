import UnitAnalysis.Proofs.Progress

/-!
# Headers of functions

The header of a function is read in two passes.  The first one skips the
parentheses by counting, takes whatever stands in them, and finds the return
type behind them.  The second one comes back to the opening parenthesis and
follows the grammar of parameters.  Nothing compares the points at which the
passes stop: the body is read behind the return type, wherever the second pass
has come to.

The passes stop at the same point all the same, because the grammar of parameters
has no parentheses.  What the first pass takes and the second refuses, such as
parentheses in parentheses, is a function that is not accepted.

Main statement: `FuncTree.params_end_where_skipped`.
-/

namespace UnitAnalysis

open UnitAnalysis.Action

/-! ## The first pass -/

theorem exists_inner_of_skipParens? {depth : Nat} {ts rest : List Token}
    (h : skipParens? depth ts = some rest) : ∃ inner, ts = inner ++ .mark .rparen :: rest := by
  fun_induction skipParens? depth ts with
  | case1 | case2 => cases h
  | case4 tail =>
      cases h
      exact ⟨[], rfl⟩
  | case3 _ tail ih | case5 tail _ ih | case6 _ _ tail _ _ _ ih =>
      obtain ⟨inner, rfl⟩ := ih h
      exact ⟨_ :: inner, rfl⟩

/-- Skipping stops behind a closing parenthesis. -/
theorem exists_inner_of_skipParams {ts stop : List Token} (h : skipParams ts = .ok stop) :
    ∃ inner, ts = .mark .lparen :: (inner ++ .mark .rparen :: stop) := by
  unfold skipParams at h
  split at h
  · split at h
    · rename_i hskip
      cases h
      obtain ⟨inner, rfl⟩ := exists_inner_of_skipParens? hskip
      exact ⟨inner, rfl⟩
    · cases h
  · cases h

/-! ## The second pass -/

theorem eq_cons_of_token {t : Token} {ts : List Token} (h : (readToken t ts).1.faults = []) :
    ts = t :: (readToken t ts).2 := by
  have hreads : Reads (.token t) nothing ts _ _ := reads_token t ts
  exact spans_token.mp (hreads.sound h)

/-- Parameters without a fault, and with a parenthesis behind them, take all that was skipped. -/
theorem derives_params_of_skipParams {inner stop : List Token}
    (hskip : skipParams (.mark .lparen :: (inner ++ .mark .rparen :: stop)) = .ok stop)
    (hparams : (readParams (inner ++ .mark .rparen :: stop)).1.flatMap ParamTree.faults = [])
    (hrparen : (readToken (.mark .rparen)
      (readParams (inner ++ .mark .rparen :: stop)).2).1.faults = []) :
    Derives (.opt (.commas (.sym .param))) inner ∧
      (readParams (inner ++ .mark .rparen :: stop)).2 = .mark .rparen :: stop := by
  obtain ⟨hspans, hstop⟩ := spans_params_of_skipParams hskip (by simp [hparams, hrparen])
  constructor
  · obtain ⟨mid, hlparen, hmid⟩ := spans_seq.mp hspans
    obtain rfl : _ = mid := (List.cons.inj (spans_mark.mp hlparen)).2
    obtain ⟨last, ⟨w, hw, hsplit⟩, hlast⟩ := spans_seq.mp hmid
    obtain rfl := spans_mark.mp hlast
    rwa [List.append_cancel_right hsplit]
  · have hcons := eq_cons_of_token hrparen
    rw [List.tail_cons] at hstop
    rwa [hstop] at hcons

/-! ## Both passes -/

/--
The tokens of a function, cut into the words that the parts of its tree are read
from.  The parameters are the word between the parentheses, the return type is the
word behind them, and the body is read from what is left then.
-/
structure FuncTree.Cut (tree : FuncTree) (ts inner returned after rest : List Token) : Prop where
  tokens : ∃ name, tree.name = .ok name ∧
    ts = .name name :: .mark .lparen :: (inner ++ .mark .rparen :: (returned ++ after))
  derives_params : Derives (.opt (.commas (.sym .param))) inner
  params : readParams (inner ++ .mark .rparen :: (returned ++ after)) =
    (tree.params, .mark .rparen :: (returned ++ after))
  derives_returned : Derives (.opt (.all [.mark .arrow, .sym .type])) returned
  returned : readReturnType (returned ++ after) = (tree.returnType, after)
  body : readBody after = (tree.body, rest)

theorem FuncTree.cut_of_faults {ts inner stop : List Token}
    (hskip : skipParams (readName ts).2 = .ok stop)
    (hinner : (readName ts).2 = .mark .lparen :: (inner ++ .mark .rparen :: stop))
    (hfaults : (readFunc ts).1.name.faults ++ (readFunc ts).1.parens.faults ++
      (readFunc ts).1.returnType.elim [] TypeTree.faults ++
      (readFunc ts).1.params.flatMap ParamTree.faults ++ (readFunc ts).1.rparen.faults = []) :
    ∃ returned after, stop = returned ++ after ∧
      (readFunc ts).1.Cut ts inner returned after (readFunc ts).2 := by
  rw [readFunc_of_skipParams hskip, hinner] at hfaults ⊢
  simp only [List.append_eq_nil_iff, List.tail_cons] at hfaults ⊢
  obtain ⟨⟨⟨⟨hname, -⟩, hreturn⟩, hparams⟩, hrparen⟩ := hfaults
  rw [hinner] at hskip
  obtain ⟨hderives, hend⟩ := derives_params_of_skipParams hskip hparams hrparen
  have hreads : Reads (.kind .name) nothing ts _ _ := reads_name ts
  obtain ⟨name, hts⟩ := spans_kind.mp (hreads.sound hname)
  obtain ⟨returned, hreturned, hsplit⟩ := (reads_returnType stop).sound hreturn
  refine ⟨returned, (readReturnType stop).2, hsplit, ?_, hderives, ?_, hreturned, ?_, rfl⟩
  · refine ⟨name, ?_, ?_⟩
    · rw [hts]
      rfl
    · rw [← hsplit, ← hinner]
      exact hts
  · rw [← hsplit]
    exact Prod.ext rfl hend
  · rw [← hsplit]

/--
Where skipping the parentheses of a function stops is where its parameters end,
whatever the store and the place that the function is analysed in.  If it is accepted
as far as the parenthesis after its parameters, then that parenthesis is the last one
skipped, and the tokens are cut into the words of its parts: none is left out, and
none belongs to two of them.  If a further parenthesis is opened among the skipped
tokens, then the function fails, and does so before its parameters are closed.
-/
theorem FuncTree.params_end_where_skipped {ts stop : List Token}
    (hskip : skipParams (readName ts).2 = .ok stop) (s : Store) (p : Place) :
    ∃ inner, (readName ts).2 = .mark .lparen :: (inner ++ .mark .rparen :: stop) ∧
      (∀ inside s', Gives ((readFunc ts).1.analyzeParams p) s inside s' →
        (readToken (.mark .rparen) (readParams (readName ts).2.tail).2).2 = stop ∧
        ∃ returned after, stop = returned ++ after ∧
          (readFunc ts).1.Cut ts inner returned after (readFunc ts).2) ∧
      (.mark .lparen ∈ inner → ∃ e s', Fails ((readFunc ts).1.analyzeParams p) s e s' ∧
        Fails ((readFunc ts).1.analyze p) s e s') := by
  obtain ⟨inner, hinner⟩ := exists_inner_of_skipParams hskip
  have hcut : ∀ inside s', Gives ((readFunc ts).1.analyzeParams p) s inside s' →
      ∃ returned after, stop = returned ++ after ∧
        (readFunc ts).1.Cut ts inner returned after (readFunc ts).2 :=
    fun _ _ h => FuncTree.cut_of_faults hskip hinner (FuncTree.faults_of_analyzeParams h)
  refine ⟨inner, hinner, ?_, ?_⟩
  · intro inside s' hgives
    obtain ⟨returned, after, hsplit, hcut⟩ := hcut inside s' hgives
    refine ⟨?_, returned, after, hsplit, hcut⟩
    rw [hinner, List.tail_cons, hsplit, hcut.params]
    rfl
  · intro hnested
    have hfails : ∃ e s', Fails ((readFunc ts).1.analyzeParams p) s e s' := by
      refine exists_fails_of_not_gives fun inside s' hgives => ?_
      obtain ⟨returned, after, -, hcut⟩ := hcut inside s' hgives
      exact (Phrase.Flat.params hcut.derives_params _ hnested).1 rfl
    obtain ⟨e, s', hfails⟩ := hfails
    refine ⟨e, s', hfails, ?_⟩
    rw [FuncTree.analyze, fails_bind, FuncTree.sign, fails_bind]
    exact .inl (.inl hfails)

/--
In `f(vi8 const& a, bool b) -> vi32*;` the return type is what stands between the
parameters and the semicolon.  The parentheses of `g(vi8 (a));` are skipped just as
well, but `g` fails.
-/
theorem params_end_before_pointer_type :
    let inner : List Token := [.builtin .vi8, .qualifier .const, .mark .amp, .name "a",
      .mark .comma, .builtin .bool, .name "b"]
    let returned : List Token := [.mark .arrow, .builtin .vi32, .operator .mul]
    let pointer : List Token := .name "f" :: .mark .lparen :: (inner ++ .mark .rparen ::
      (returned ++ [.mark .semi]))
    let nested : List Token := [.name "g", .mark .lparen, .builtin .vi8, .mark .lparen, .name "a",
      .mark .rparen, .mark .rparen, .mark .semi]
    skipParams (readName pointer).2 = .ok (returned ++ [.mark .semi]) ∧
      (readFunc pointer).1.Cut pointer inner returned [.mark .semi] [] ∧
      skipParams (readName nested).2 = .ok [.mark .semi] ∧
      ∃ e s', Fails ((readFunc nested).1.analyze .top) .empty e s' := by
  intro inner returned pointer nested
  have hpointer : skipParams (readName pointer).2 = .ok (returned ++ [.mark .semi]) := rfl
  have hnested : skipParams (readName nested).2 = .ok [.mark .semi] := rfl
  refine ⟨hpointer, ?_, hnested, ?_⟩
  · obtain ⟨inside, s', hgives⟩ : ∃ inside s',
        Gives ((readFunc pointer).1.analyzeParams .top) .empty inside s' :=
      exists_gives_of_succeeds (by decide +kernel)
    obtain ⟨inner', hinner, hcut, -⟩ := FuncTree.params_end_where_skipped hpointer .empty .top
    obtain ⟨-, returned', after, hsplit, hcut⟩ := hcut inside s' hgives
    have hreturned := hcut.returned
    rw [← hsplit] at hreturned
    obtain rfl : [.mark .semi] = after := congrArg Prod.snd hreturned
    obtain rfl := List.append_cancel_right hsplit
    obtain rfl : inner = inner' := List.append_cancel_right (List.cons.inj hinner).2
    have hrest : (readFunc pointer).2 = [] := rfl
    rwa [hrest] at hcut
  · obtain ⟨inner', hinner, -, hfails⟩ := FuncTree.params_end_where_skipped hnested .empty .top
    have hmem : .mark .lparen ∈ inner' := by
      have heq : [.builtin .vi8, .mark .lparen, .name "a", .mark .rparen] = inner' :=
        List.append_cancel_right (List.cons.inj hinner).2
      rw [← heq]
      decide
    obtain ⟨e, s', -, hfails⟩ := hfails hmem
    exact ⟨e, s', hfails⟩

end UnitAnalysis
