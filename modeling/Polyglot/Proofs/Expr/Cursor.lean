import Polyglot.Proofs.Expr.Moves

/-!
# Reading in place is safe

The reader in place is followed by the reader of characters, which has only lists and no positions:
from any position at which a character begins, both come to the same. So it ends, on every text, and
its positions are where the other one has characters left.

- `Cursor.Mirrors`: what expressions come to, nested as deeply as `limit` allows.
- `Cursor.read_safe`: a text is never cut within a character, the reader ends, and it does to a text
  what `Stores.read` does.
-/

namespace Polyglot

namespace Cursor

open Source (Failure isIdentStart isAtomStart)

variable {text : String} {rest : List Char} {s : Stores}

/-! ## Expressions -/

/-- What a reading of characters comes to, stored, is what a reader in place comes to. The bounds
on how deeply calls may be nested are two for every character that is left. -/
structure Mirrors (text : String) (limit : Nat) : Prop where
  expr : ∀ rest s, 2 * rest.length + 1 < limit → Meets text (expr text limit) rest s
    (.of Stores.internSource s (Source.readExpr rest))
  args : ∀ rest s, 2 * rest.length + 1 < limit → Meets text (args text limit) rest s
    (.of Stores.internSources s (Source.readArgs rest))
  atom : ∀ c cs s, Text.isBlank c = false → 2 * (c :: cs).length < limit →
    Meets text (atom text limit) (c :: cs) s (.of Stores.internSource s (Source.readAtom c cs))

theorem of_skipBlanks {c : Char} {cs : List Char} (h : Text.skipBlanks rest = c :: cs) :
    Text.isBlank c = false ∧ (c :: cs).length ≤ rest.length := by
  refine ⟨?_, h ▸ Text.length_skipBlanks_le rest⟩
  have hhead := List.head?_dropWhile_not Text.isBlank rest
  rw [show rest.dropWhile Text.isBlank = c :: cs from h] at hhead
  simpa using hhead

variable {limit : Nat}

theorem Mirrors.succ_args (h : Mirrors text limit) (rest : List Char) (s : Stores)
    (hlimit : 2 * rest.length + 1 < limit + 1) : Meets text (Cursor.args text (limit + 1)) rest s
      (.of Stores.internSources s (Source.readArgs rest)) := by
  rw [Source.readArgs]
  split
  · rename_i hskip
    rw [Cursor.args]
    exact (meets_skipBlanks hskip).bind (meets_peek.bind (.pure []))
  · rename_i c cs hskip
    obtain ⟨hblank, hlength⟩ := of_skipBlanks hskip
    rw [List.length_cons] at hlength
    rw [Cursor.args]
    refine (meets_skipBlanks hskip).bind (meets_peek.bind ?_)
    by_cases hstart : isAtomStart c = true
    · rw [if_pos hstart, if_pos (show (c :: cs).head?.any isAtomStart = true from hstart)]
      have hatom := h.atom c cs s hblank (by rw [List.length_cons]; omega)
      cases hread : Source.readAtom c cs with
      | error f =>
        rw [hread] at hatom
        exact hatom.bind_error
      | ok p =>
        obtain ⟨arg, rest', hrest'⟩ := p
        rw [hread] at hatom
        refine hatom.bind ?_
        have hargs := h.args rest' (s.internSource arg).2 (by omega)
        dsimp only
        cases hreads : Source.readArgs rest' with
        | error f =>
          rw [hreads] at hargs
          exact hargs.bind_error
        | ok q =>
          obtain ⟨args, rest'', hrest''⟩ := q
          rw [hreads] at hargs
          exact hargs.bind (.pure _)
    · rw [if_neg hstart, if_neg (show ¬ (c :: cs).head?.any isAtomStart = true from hstart)]
      exact .pure []

/-- There is no atom at the end of a text. -/
theorem meets_atom_nil : Meets text (Cursor.atom text (limit + 1)) [] s
    (.error (.unexpectedEnd, [], s)) := by
  rw [Cursor.atom]
  exact (meets_skipBlanks rfl).bind (meets_peek.bind meets_fail)

theorem Mirrors.succ_expr (h : Mirrors text limit) (rest : List Char) (s : Stores)
    (hlimit : 2 * rest.length + 1 < limit + 1) : Meets text (Cursor.expr text (limit + 1)) rest s
      (.of Stores.internSource s (Source.readExpr rest)) := by
  rw [Source.readExpr]
  split
  · rename_i hskip
    rw [Cursor.expr]
    obtain ⟨limit, rfl⟩ := Nat.exists_eq_add_one_of_ne_zero (show limit ≠ 0 by omega)
    exact (meets_skipBlanks hskip).bind (meets_here.bind (meets_peek.bind
      meets_atom_nil.bind_error))
  · rename_i c cs hskip
    obtain ⟨hblank, hlength⟩ := of_skipBlanks hskip
    rw [List.length_cons] at hlength
    rw [Cursor.expr]
    refine (meets_skipBlanks hskip).bind (.of_suffix fun hsuffix => ?_)
    refine meets_here.bind (meets_peek.bind ?_)
    by_cases hstart : isIdentStart c = true
    · rw [if_pos hstart, if_pos (show (c :: cs).head?.any isIdentStart = true from hstart)]
      refine (meets_ident hstart cs).bind ?_
      have hident := Source.length_ident_le c cs
      have hargs := h.args (Source.ident c cs).2
        { s with symbols := (s.symbols.intern (Source.ident c cs).1).2 } (by omega)
      cases hread : Source.readArgs (Source.ident c cs).2 with
      | error f =>
        rw [hread] at hargs
        exact hargs.bind_error
      | ok p =>
        obtain ⟨args, rest', hrest'⟩ := p
        rw [hread] at hargs
        refine hargs.bind ?_
        dsimp only [Outcome.of]
        rw [Stores.internSource]
        exact meets_store _
    · rw [if_neg hstart, if_neg (show ¬ (c :: cs).head?.any isIdentStart = true from hstart)]
      have hatom := h.atom c cs s hblank (by rw [List.length_cons]; omega)
      cases hread : Source.readAtom c cs with
      | error f =>
        rw [hread] at hatom
        exact hatom.bind_error
      | ok p =>
        obtain ⟨atom, rest', hrest'⟩ := p
        rw [hread] at hatom
        refine hatom.bind ((meets_skipBlanks rfl).bind (meets_peek.bind ?_))
        dsimp only
        split
        · exact (meets_goTo hsuffix).bind meets_fail
        · exact .pure _

theorem Mirrors.succ_atom (h : Mirrors text limit) (c : Char) (cs : List Char) (s : Stores)
    (hblank : Text.isBlank c = false) (hlimit : 2 * (c :: cs).length < limit + 1) :
    Meets text (Cursor.atom text (limit + 1)) (c :: cs) s
      (.of Stores.internSource s (Source.readAtom c cs)) := by
  have hskip : Text.skipBlanks (c :: cs) = c :: cs := Source.skipBlanks_cons hblank cs
  rw [Cursor.atom]
  refine (meets_skipBlanks hskip).bind (meets_peek.bind ?_)
  rw [List.head?_cons]
  dsimp only
  rw [Source.readAtom]
  by_cases hopen : c = '('
  · subst hopen
    rw [if_pos rfl, if_pos rfl]
    refine (meets_advance_one (by decide)).bind ?_
    have hexpr := h.expr cs s (by rw [List.length_cons] at hlimit; omega)
    cases hread : Source.readExpr cs with
    | error f =>
      rw [hread] at hexpr
      exact hexpr.bind_error
    | ok p =>
      obtain ⟨inner, rest', hrest'⟩ := p
      rw [hread] at hexpr
      refine hexpr.bind ?_
      dsimp only
      split
      · rename_i rest'' hclose
        exact (meets_skipBlanks hclose).bind ((meets_skip (by decide)).bind (.pure _))
      · rename_i hne
        exact (meets_skipBlanks rfl).bind ((meets_skip_ne hne).bind meets_fail)
  rw [if_neg hopen, if_neg hopen]
  by_cases hquote : c = '"'
  · subst hquote
    rw [if_pos rfl, if_pos rfl]
    split
    · rename_i hbody
      exact meets_string_none hbody
    · rename_i value rest' hbody
      exact meets_string hbody
  rw [if_neg hquote, if_neg hquote]
  by_cases hquestion : c = '?'
  · subst hquestion
    rw [if_pos rfl, if_pos rfl]
    exact meets_hole cs
  rw [if_neg hquestion, if_neg hquestion]
  by_cases hdigit : (c = '-' || c.isDigit) = true
  · rw [if_pos hdigit, if_pos hdigit]
    have hnumber : Meets text (number text) (c :: cs) s _ := meets_number
    cases hread : Source.readNumber (c :: cs) with
    | error f =>
      rw [hread] at hnumber
      exact hnumber
    | ok p =>
      rw [hread] at hnumber
      exact hnumber
  rw [if_neg hdigit, if_neg hdigit]
  by_cases hstart : isIdentStart c = true
  · rw [if_pos hstart, if_pos hstart]
    refine (meets_ident hstart cs).bind ?_
    rw [Outcome.of, Stores.internSource]
    exact meets_store _
  · rw [if_neg hstart, if_neg hstart]
    exact meets_fail

theorem mirrors (text : String) (limit : Nat) : Mirrors text limit := by
  induction limit with
  | zero =>
    exact ⟨fun _ _ h => absurd h (Nat.not_lt_zero _), fun _ _ h => absurd h (Nat.not_lt_zero _),
      fun _ _ _ _ h => absurd h (Nat.not_lt_zero _)⟩
  | succ limit ih => exact ⟨ih.succ_expr, ih.succ_args, ih.succ_atom⟩

/-! ## Whole texts -/

theorem meets_skipSemicolon :
    Meets text (skipSemicolon text) rest s (.ok ((), Source.skipSemicolon rest, s)) := by
  unfold Source.skipSemicolon
  split
  · rename_i rest' hskip
    exact (meets_skipBlanks hskip).bind ((meets_skip (by decide)).bind (meets_skipBlanks rfl))
  · rename_i hne
    exact (meets_skipBlanks rfl).bind ((meets_skip_ne hne).bind (.pure ()))

/-- What is skipped up to the end is white space and at most one semicolon. -/
theorem tail_of_skipSemicolon (h : Source.skipSemicolon rest = []) : Source.Tail rest := by
  have hblank : ∀ {cs : List Char}, Text.skipBlanks cs = [] → Source.Blank cs :=
    fun h => List.dropWhile_eq_nil_iff.1 h
  unfold Source.skipSemicolon at h
  split at h
  · rename_i rest' hskip
    have hsplit : rest.takeWhile Text.isBlank ++ ';' :: rest' = rest :=
      (congrArg _ hskip.symm).trans List.takeWhile_append_dropWhile
    rw [← hsplit]
    exact .semicolon (fun c hc => List.mem_takeWhile_imp hc) (hblank h)
  · exact .blank (hblank h)

/-- Only at the end of a text is nothing left of it. -/
theorem before_lt_rawEndPos_iff (h : rest <:+ text.toList) :
    before text rest < text.rawEndPos ↔ rest ≠ [] := by
  obtain ⟨taken, h⟩ := h
  rw [before_eq h.symm, String.Pos.Raw.lt_iff, String.byteIdx_rawEndPos, utf8ByteSize_eq, ← h,
    utf8Size_append]
  cases rest with
  | nil => exact iff_of_false (Nat.lt_irrefl _) (fun hne => hne rfl)
  | cons c cs =>
    have hpos := c.utf8Size_pos
    rw [utf8Size_cons]
    exact iff_of_true (by dsimp only; omega) (List.cons_ne_nil c cs)

/-- What becomes of a reading of a whole text when its source is stored. -/
def Outcome.whole (s : Stores) : Except Failure Source → Outcome ExprId
  | .ok source => .ok ((s.internSource source).1, [], (s.internSource source).2)
  | .error f => .error (f.error, f.rest, f.fragments.foldl Stores.internFragment s)

theorem meets_read (hlimit : 2 * text.length + 1 < limit) :
    Meets text (Cursor.read text limit) text.toList s (.whole s (Source.read text.toList)) := by
  have hexpr := (mirrors text limit).expr text.toList s hlimit
  unfold Source.read
  cases hread : Source.readExpr text.toList with
  | error f =>
    rw [hread] at hexpr
    exact hexpr.bind_error
  | ok p =>
    obtain ⟨source, rest, hrest⟩ := p
    rw [hread] at hexpr
    refine hexpr.bind (meets_skipSemicolon.bind (.of_suffix fun hsuffix => meets_here.bind ?_))
    dsimp only
    cases hleft : Source.skipSemicolon rest with
    | nil =>
      rw [hleft] at hsuffix
      rw [if_neg (mt (before_lt_rawEndPos_iff hsuffix).1 fun hne => hne rfl)]
      exact .pure _
    | cons c cs =>
      rw [hleft] at hsuffix
      rw [if_pos ((before_lt_rawEndPos_iff hsuffix).2 (List.cons_ne_nil c cs))]
      exact meets_fail

theorem at_start (s : Stores) (text : String) : At text text.toList s { stores := s } :=
  ⟨List.suffix_rfl, (before_self text).symm, rfl, fun _ hp => absurd hp List.not_mem_nil⟩

/-- A text that is read is an expression and what may come after it. -/
theorem exists_of_read {cs : List Char} {source : Source} (h : Source.read cs = .ok source) :
    ∃ rest hrest, Source.readExpr cs = .ok (source, ⟨rest, hrest⟩) ∧ Source.Tail rest := by
  unfold Source.read at h
  cases hread : Source.readExpr cs with
  | error f =>
    rw [hread] at h
    cases h
  | ok p =>
    obtain ⟨source', rest, hrest⟩ := p
    rw [hread] at h
    dsimp only at h
    split at h
    · rename_i hend
      cases h
      exact ⟨rest, hrest, rfl, tail_of_skipSemicolon hend⟩
    · cases h

/-- What a reader in place does to a text, from the beginning until it is at `c`. -/
structure Safe (s : Stores) (text : String) (limit : Nat) (c : Cursor) : Prop where
  /-- It ends, as the reader of characters does. -/
  ends : run { stores := s } (Cursor.read text limit) = ((s.read text).1.mapError .failure, c)
  stores : c.stores = (s.read text).2
  /-- Wherever it has been, a character begins or the text ends. -/
  visited : ∀ p ∈ c.visited, p.IsValid text ∧ p ≤ text.rawEndPos
  /-- That holds also of where an error is said to be. -/
  offset : ∀ f, (s.read text).1 = .error f →
    (⟨f.offset⟩ : String.Pos.Raw).IsValid text ∧ f.offset ≤ text.utf8ByteSize
  /-- What is read is the whole text, up to white space and a semicolon. -/
  consumed : ∀ id, (s.read text).1 = .ok id → c.pos = text.rawEndPos ∧
    ∃ body tail c', text.toList = body ++ tail ∧ Source.Tail tail ∧
      run { stores := s } (Cursor.expr text limit) = (.ok id, c') ∧
      c'.pos = ⟨utf8Size body⟩ ∧ c'.stores = c.stores

/-- **The reader is safe on every text**, if calls may be nested twice as deeply as the text is
long. -/
theorem read_safe (s : Stores) (text : String) {limit : Nat}
    (hlimit : 2 * text.length + 1 < limit) : ∃ c, Safe s text limit c := by
  have hboundary : ∀ {p : String.Pos.Raw}, p.IsValid text → p.IsValid text ∧ p ≤ text.rawEndPos :=
    fun h => ⟨h, h.le_rawEndPos⟩
  have hcomes := meets_read hlimit _ (at_start s text)
  cases hread : Source.read text.toList with
  | error f =>
    have hstored : s.read text = (.error ⟨(before text f.rest).byteIdx, f.error⟩,
        f.fragments.foldl Stores.internFragment s) := by
      rw [Stores.read, hread]
      rfl
    rw [hread, Outcome.whole] at hcomes
    generalize hrun : run { stores := s } (Cursor.read text limit) = out at hcomes
    cases hcomes with
    | error hsuffix hstores hvisited =>
      refine ⟨_, ?_, ?_, fun p hp => hboundary (hvisited p hp), ?_, ?_⟩
      · rw [hrun, hstored]
        rfl
      · rw [hstores, hstored]
      · rw [hstored]
        rintro f' ⟨⟩
        exact hboundary (isValid_before hsuffix)
      · rw [hstored]
        rintro id ⟨⟩
  | ok source =>
    have hstored : s.read text = (.ok (s.internSource source).1, (s.internSource source).2) := by
      rw [Stores.read, hread]
    obtain ⟨rest, hrest, hexpr, htail⟩ := exists_of_read hread
    have hcomes' := (mirrors text limit).expr text.toList s hlimit _ (at_start s text)
    rw [hread, Outcome.whole] at hcomes
    rw [hexpr, Outcome.of] at hcomes'
    generalize hrun : run { stores := s } (Cursor.read text limit) = out at hcomes
    generalize hrun' : run { stores := s } (Cursor.expr text limit) = out' at hcomes'
    cases hcomes with
    | ok h =>
      cases hcomes' with
      | ok h' =>
        refine ⟨_, ?_, ?_, fun p hp => hboundary (h.visited p hp), ?_, ?_⟩
        · rw [hrun, hstored]
          rfl
        · rw [h.stores, hstored]
        · rw [hstored]
          rintro f ⟨⟩
        · rw [hstored]
          rintro id ⟨⟩
          obtain ⟨body, hbody⟩ := h'.suffix
          exact ⟨h.pos.trans (before_nil text), body, rest, _, hbody.symm, htail, hrun',
            h'.pos.trans (before_eq hbody.symm), h'.stores.trans h.stores.symm⟩

theorem read_safe_umlauts :
    2 * "größe (\"ä\\\"\" ?2) ;".length + 1 < 99 ∧
      ∃ c, Safe {} "größe (\"ä\\\"\" ?2) ;" 99 c := by
  have hlimit : 2 * "größe (\"ä\\\"\" ?2) ;".length + 1 < 99 := by decide +kernel
  exact ⟨hlimit, read_safe {} _ hlimit⟩

end Cursor

end Polyglot
