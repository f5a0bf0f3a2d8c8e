import Polyglot.Proofs.Expr.Numerals

/-!
# What is written is read back

A source is written as an expression is, and its text is read as the same source. The exception are
floats that are not finite: what is written for them looks like an identifier, or like a number
without digits. `Source.reread` says what becomes of a source in that way.

An argument is a single atom, with parentheses around it if it would be more than one otherwise, so
the arguments of an application are told apart by the blanks between them; the last one ends where
neither an identifier nor a number can go on.

- `Source.write`: the text of a source.
- `Source.reread`: what the text of a source is read as.
- `Source.ReadsAsAtom`: a text that is read as a single atom, whatever comes after it.
- `Source.read_write`: what is read back from the text of a source, with white space around it and a
  semicolon at its end.
-/

namespace Polyglot

namespace Source

/-- Induction over a source, with all arguments of an application at once. -/
@[elab_as_elim]
theorem induction {P : Source → Prop}
    (app : ∀ name args, (∀ source ∈ args, P source) → P (.app name args))
    (lit : ∀ value, P (.lit value)) (hole : ∀ index, P (.hole index)) : ∀ source, P source
  | .hole index => hole index
  | .lit value => lit value
  | .app name args => app name args fun source _ => induction app lit hole source

/-! ## Texts of sources -/

mutual

/-- The text of a source; `nested` says that it is an argument. -/
def write (nested : Bool) : Source → List Char
  | .app name args => parenthesize (nested && !args.isEmpty) (name.toList ++ writeArgs args)
  | .lit value => parenthesize (nested && value.isNegative) value.text.toList
  | .hole index => '?' :: (toString index).toList

/-- The texts of arguments, each after a space. -/
def writeArgs : List Source → List Char
  | [] => []
  | source :: sources => ' ' :: write true source ++ writeArgs sources

end

/-- What the text of a literal is read as. -/
def rereadLiteral : Literal → Option Source
  | .float x =>
    if x.isFinite then some (.lit (.float x))
    else if x.isNaN then some (.app "NaN" [])
    else if x.signBit then none
    else some (.app "inf" [])
  | value => some (.lit value)

mutual

/-- What the text of a source is read as, if it can be read. -/
def reread : Source → Option Source
  | .app name args => (rereadAll args).map (.app name)
  | .lit value => rereadLiteral value
  | .hole index => some (.hole index)

/-- What the texts of several sources are read as. -/
def rereadAll : List Source → Option (List Source)
  | [] => some []
  | source :: sources =>
    (reread source).bind fun first => (rereadAll sources).map (first :: ·)

end

end Source

/-- A literal within the range of its kind: integers have 64 bits. -/
def Literal.InRange : Literal → Prop
  | .int n => -2 ^ 63 ≤ n ∧ n < 2 ^ 63
  | .str _ | .float _ => True

namespace Source

/-- A source whose names are identifiers and whose numbers are within the range of their kinds. -/
inductive Legible : Source → Prop where
  | app {name : String} {args : List Source} (hname : isIdentifier name = true)
      (hargs : ∀ source ∈ args, Legible source) : Legible (.app name args)
  | lit {value : Literal} (h : value.InRange) : Legible (.lit value)
  | hole {index : Nat} (h : index < 2 ^ 32) : Legible (.hole index)

/-! ## The steps of the reader -/

section Steps

variable {text cs rest : List Char} {c : Char}

theorem outcome_readExpr_nil (h : Text.skipBlanks text = []) :
    outcome (readExpr text) = none := by
  rw [readExpr]
  split
  · rfl
  · rename_i hcons
    rw [h] at hcons
    cases hcons

theorem outcome_readExpr_app (h : Text.skipBlanks text = c :: cs) (hc : isIdentStart c = true) :
    outcome (readExpr text) = (outcome (readArgs (ident c cs).2)).map
      fun p => (.app (ident c cs).1 p.1, p.2) := by
  rw [readExpr]
  split
  · rename_i hnil
    rw [h] at hnil
    cases hnil
  · rename_i c' cs' hcons
    obtain ⟨rfl, rfl⟩ := List.cons.inj (h.symm.trans hcons)
    rw [if_pos hc]
    cases readArgs (ident c cs).2 with
    | error f => rfl
    | ok p => rfl

theorem outcome_readExpr_atom (h : Text.skipBlanks text = c :: cs) (hc : isIdentStart c = false) :
    outcome (readExpr text) = (outcome (readAtom c cs)).bind fun p =>
      if (Text.skipBlanks p.2).head?.any isAtomStart then none
      else some (p.1, Text.skipBlanks p.2) := by
  rw [readExpr]
  split
  · rename_i hnil
    rw [h] at hnil
    cases hnil
  · rename_i c' cs' hcons
    obtain ⟨rfl, rfl⟩ := List.cons.inj (h.symm.trans hcons)
    rw [if_neg (Bool.eq_false_iff.1 hc)]
    cases readAtom c cs with
    | error f => rfl
    | ok p =>
      obtain ⟨atom, rest, hrest⟩ := p
      simp only [outcome_ok, Option.bind_some]
      split <;> rfl

theorem outcome_readArgs_stop (h : ∀ c ∈ (Text.skipBlanks text).head?, isAtomStart c = false) :
    outcome (readArgs text) = some ([], Text.skipBlanks text) := by
  rw [readArgs]
  split
  · rename_i hnil
    rw [hnil]
    rfl
  · rename_i c cs hcons
    rw [if_neg (Bool.eq_false_iff.1 (h c (by rw [hcons]; rfl))), outcome_ok]
    exact congrArg (fun rest => some ([], rest)) hcons.symm

theorem outcome_readArgs_cons (h : Text.skipBlanks text = c :: cs) (hc : isAtomStart c = true) :
    outcome (readArgs text) = (outcome (readAtom c cs)).bind fun p =>
      (outcome (readArgs p.2)).map fun q => (p.1 :: q.1, q.2) := by
  rw [readArgs]
  split
  · rename_i hnil
    rw [h] at hnil
    cases hnil
  · rename_i c' cs' hcons
    obtain ⟨rfl, rfl⟩ := List.cons.inj (h.symm.trans hcons)
    rw [if_pos hc]
    cases readAtom c cs with
    | error f => rfl
    | ok p =>
      obtain ⟨arg, rest, hrest⟩ := p
      simp only [outcome_ok, Option.bind_some]
      cases readArgs rest with
      | error f => rfl
      | ok q => rfl

theorem outcome_readAtom_open : outcome (readAtom '(' cs) =
    (outcome (readExpr cs)).bind fun p =>
      if (Text.skipBlanks p.2).head? = some ')' then some (p.1, (Text.skipBlanks p.2).tail)
      else none := by
  rw [readAtom, if_pos rfl]
  cases readExpr cs with
  | error f => rfl
  | ok p =>
    obtain ⟨inner, rest, hrest⟩ := p
    simp only [outcome_ok, Option.bind_some]
    split
    · rename_i hclose
      simp [hclose]
    · rename_i hne
      rw [if_neg]
      · rfl
      · intro hhead
        obtain ⟨rest', hrest'⟩ := List.head?_eq_some_iff.1 hhead
        exact hne _ hrest'

theorem outcome_readAtom_string {value : List Char} (h : stringBody cs = some (value, rest)) :
    outcome (readAtom '"' cs) = some (.lit (.str (String.ofList value)), rest) := by
  rw [readAtom, if_neg (by decide), if_pos rfl]
  split
  · rename_i hnone
    rw [h] at hnone
    cases hnone
  · rename_i value' rest' hsome
    obtain ⟨rfl, rfl⟩ := Prod.mk.inj (Option.some.inj (h.symm.trans hsome))
    rfl

/-- A string that is read has an end. -/
theorem exists_stringBody_of_readAtom {source : Source}
    (h : outcome (readAtom '"' cs) = some (source, rest)) :
    ∃ value rest', stringBody cs = some (value, rest') := by
  rw [readAtom, if_neg (by decide), if_pos rfl] at h
  split at h
  · cases h
  · exact ⟨_, _, ‹_›⟩

theorem outcome_readAtom_hole : outcome (readAtom '?' cs) = outcome (readHole cs) := by
  rw [readAtom, if_neg (by decide), if_neg (by decide), if_pos rfl]

theorem outcome_readAtom_number (h : c = '-' ∨ c.isDigit = true) :
    outcome (readAtom c cs) = outcome (readNumber (c :: cs)) := by
  have hne : ∀ d : Char, d ≠ '-' → d.isDigit = false → c ≠ d := by
    intro d hd hdigit
    rcases h with rfl | h
    · exact hd.symm
    · exact ne_of_class h hdigit
  rw [readAtom, if_neg (hne '(' (by decide) (by decide)), if_neg (hne '"' (by decide) (by decide)),
    if_neg (hne '?' (by decide) (by decide)), if_pos (by simpa using h)]
  cases readNumber (c :: cs) with
  | error f => rfl
  | ok p => rfl

theorem outcome_readAtom_ident (h : isIdentStart c = true) :
    outcome (readAtom c cs) = some (.app (ident c cs).1 [], (ident c cs).2) := by
  have hne : ∀ d : Char, isIdentStart d = false → c ≠ d := fun _ => ne_of_class h
  have hnumber : ¬ (decide (c = '-') || c.isDigit) = true := by
    intro hnumber
    rcases Bool.or_eq_true _ _ ▸ hnumber with hminus | hdigit
    · exact hne '-' (by decide +kernel) (of_decide_eq_true hminus)
    · exact absurd h (Bool.eq_false_iff.1 (isIdentStart_of_isDigit hdigit))
  rw [readAtom, if_neg (hne '(' (by decide +kernel)), if_neg (hne '"' (by decide +kernel)),
    if_neg (hne '?' (by decide +kernel)), if_neg (by simpa using hnumber), if_pos h]
  rfl

end Steps

/-- Where an expression reads from is where the white space before it ends. -/
theorem outcome_readExpr_congr {text text' : List Char}
    (h : Text.skipBlanks text = Text.skipBlanks text') :
    outcome (readExpr text) = outcome (readExpr text') := by
  cases hskip : Text.skipBlanks text' with
  | nil => rw [outcome_readExpr_nil (h.trans hskip), outcome_readExpr_nil hskip]
  | cons c cs =>
    by_cases hc : isIdentStart c = true
    · rw [outcome_readExpr_app (h.trans hskip) hc, outcome_readExpr_app hskip hc]
    · rw [outcome_readExpr_atom (h.trans hskip) (Bool.eq_false_iff.2 hc),
        outcome_readExpr_atom hskip (Bool.eq_false_iff.2 hc)]

/-! ## Atoms -/

/-- A text that an expression ends before: it goes on neither an identifier or a number nor the
arguments of an application. -/
structure Closed (rest : List Char) : Prop where
  apart : Apart rest
  stop : ∀ c ∈ (Text.skipBlanks rest).head?, isAtomStart c = false

/-- A text that is read as a single atom, whatever comes after it, or that is never read. -/
def ReadsAsAtom (text : List Char) (result : Option Source) : Prop :=
  ∃ c cs, text = c :: cs ∧ isAtomStart c = true ∧ Text.isBlank c = false ∧
    ∀ rest, Apart rest →
      outcome (readAtom c (cs ++ rest)) = result.map fun source => (source, rest)

/-- A text that is read as an expression, if nothing comes after it that belongs to it. -/
def ReadsAs (text : List Char) (result : Option Source) : Prop :=
  ∀ rest, Closed rest →
    outcome (readExpr (text ++ rest)) = result.map fun source => (source, Text.skipBlanks rest)

theorem skipBlanks_cons {c : Char} (h : Text.isBlank c = false) (cs : List Char) :
    Text.skipBlanks (c :: cs) = c :: cs := by
  simp [Text.skipBlanks, h]

theorem closed_cons_close (rest : List Char) : Closed (')' :: rest) := by
  refine ⟨apart_cons_close rest, ?_⟩
  rw [skipBlanks_cons (by decide) _]
  rintro _ ⟨⟩
  decide +kernel

section Atoms

variable {text : List Char} {result : Option Source} {name : String}

/-- An atom is an expression by itself. -/
theorem ReadsAsAtom.readsAs (h : ReadsAsAtom text result) : ReadsAs text result := by
  obtain ⟨c, cs, rfl, -, hblank, hread⟩ := h
  intro rest hrest
  have hskip : Text.skipBlanks (c :: cs ++ rest) = c :: (cs ++ rest) := skipBlanks_cons hblank _
  have hatom := hread rest hrest.apart
  by_cases hc : isIdentStart c = true
  · -- an identifier could have had arguments, but there are none
    rw [outcome_readAtom_ident hc] at hatom
    cases result with
    | none => cases hatom
    | some source =>
      obtain ⟨rfl, hident⟩ := Prod.mk.inj (Option.some.inj hatom)
      rw [outcome_readExpr_app hskip hc, hident, outcome_readArgs_stop hrest.stop]
      rfl
  · rw [outcome_readExpr_atom hskip (Bool.eq_false_iff.2 hc), hatom]
    cases result with
    | none => rfl
    | some source =>
      have hstop : ¬ (Text.skipBlanks rest).head?.any isAtomStart = true := by
        cases hhead : (Text.skipBlanks rest).head? with
        | none => simp
        | some d => simp [hrest.stop d hhead]
      simp [hstop]

/-- An expression in parentheses is an atom. -/
theorem ReadsAs.parenthesize (h : ReadsAs text result) :
    ReadsAsAtom (parenthesize true text) result := by
  refine ⟨'(', text ++ [')'], rfl, by decide +kernel, by decide, fun rest _ => ?_⟩
  rw [outcome_readAtom_open, List.append_assoc, List.singleton_append,
    h _ (closed_cons_close rest), skipBlanks_cons (by decide) _]
  cases result with
  | none => rfl
  | some source => simp [skipBlanks_cons (by decide : Text.isBlank ')' = false)]

theorem isAtomStart_of_isIdentStart {c : Char} (h : isIdentStart c = true) :
    isAtomStart c = true := by
  simp [isAtomStart, h]

/-- An identifier is an atom. -/
theorem readsAsAtom_ident (h : isIdentifier name = true) :
    ReadsAsAtom name.toList (some (.app name [])) := by
  obtain ⟨c, cs, hname, hc, hcs⟩ := isIdentifier_iff.1 h
  refine ⟨c, cs, hname, isAtomStart_of_isIdentStart hc, isBlank_of_isIdentStart hc,
    fun rest hrest => ?_⟩
  rw [outcome_readAtom_ident hc, ident_append hname hcs hrest]
  rfl

theorem isBlank_of_isDigit {c : Char} (h : c.isDigit = true) : Text.isBlank c = false := by
  refine Bool.eq_false_iff.2 fun hblank => ?_
  have := isIdentChar_of_isBlank hblank
  rw [isIdentChar_of_isDigit h] at this
  cases this

/-- A numeral is an atom. -/
theorem readsAsAtom_numeral {n : Numeral} (h : n.Proper) {value : Literal}
    (hliteral : n.literal n.write = .ok value) : ReadsAsAtom n.write (some (.lit value)) := by
  have hread : ∀ rest, Apart rest →
      outcome (readNumber (n.write ++ rest)) = some (.lit value, rest) := by
    intro rest hrest
    rw [outcome_readNumber h hrest, hliteral]
    rfl
  obtain ⟨d, ds, hds⟩ := List.exists_cons_of_ne_nil h.ne_nil
  obtain ⟨c, cs, hcons, hc⟩ : ∃ c cs, n.write = c :: cs ∧ (c = '-' ∨ c.isDigit = true) := by
    cases hsign : n.negative with
    | true => exact ⟨'-', _, by rw [Numeral.write, hsign]; rfl, .inl rfl⟩
    | false =>
      refine ⟨d, _, by rw [Numeral.write, hsign, hds]; rfl, .inr (h.whole d ?_)⟩
      rw [hds]
      exact List.mem_cons_self
  refine ⟨c, cs, hcons, ?_, ?_, fun rest hrest => ?_⟩
  · rcases hc with rfl | hc
    · decide +kernel
    · simp [isAtomStart, hc]
  · rcases hc with rfl | hc
    · decide
    · exact isBlank_of_isDigit hc
  · rw [outcome_readAtom_number hc, ← List.cons_append, ← hcons, hread rest hrest]
    rfl

/-- What is written for a literal is an atom. -/
theorem readsAsAtom_literal {value : Literal} (h : value.InRange) :
    ReadsAsAtom value.text.toList (rereadLiteral value) := by
  cases value with
  | str s =>
    refine ⟨'"', (s.toList.map escapeChar).flatten ++ ['"'], by simp [Literal.text],
      by decide +kernel, by decide, fun rest _ => ?_⟩
    rw [List.append_assoc, List.singleton_append,
      outcome_readAtom_string (stringBody_escape s.toList rest), String.ofList_toList]
    rfl
  | int n =>
    have hwrite := write_intNumeral n
    rw [Literal.text, ← hwrite]
    exact readsAsAtom_numeral (proper_intNumeral n) (literal_intNumeral h)
  | float x =>
    rw [Literal.text, rereadLiteral]
    split
    · rename_i hfinite
      obtain ⟨n, hproper, hwrite, hliteral⟩ := exists_numeral_float hfinite
      rw [← hwrite]
      exact readsAsAtom_numeral hproper hliteral
    · rename_i hinfinite
      rw [Double.text]
      split
      · exact readsAsAtom_ident (by decide +kernel)
      · split
        · -- a minus sign without a digit after it
          refine ⟨'-', ['i', 'n', 'f'], rfl, by decide +kernel, by decide, fun rest _ => ?_⟩
          have hnil : (numeral ('-' :: (['i', 'n', 'f'] ++ rest))).1.whole = [] := rfl
          rw [outcome_readAtom_number (.inl rfl), readNumber, dif_pos hnil]
          rfl
        · exact readsAsAtom_ident (by decide +kernel)

/-- What is written for a hole is an atom. -/
theorem readsAsAtom_hole {index : Nat} (h : index < 2 ^ 32) :
    ReadsAsAtom ('?' :: (toString index).toList) (some (.hole index)) := by
  refine ⟨'?', _, rfl, by decide +kernel, by decide, fun rest hrest => ?_⟩
  rw [outcome_readAtom_hole, outcome_readHole h hrest]
  rfl

end Atoms

/-! ## Whole sources -/

/-- Arguments are kept apart from what comes before them by blanks. -/
theorem Closed.apart_writeArgs {rest : List Char} (hrest : Closed rest) (args : List Source) :
    Apart (writeArgs args ++ rest) := by
  cases args with
  | nil => exact hrest.apart
  | cons source args =>
    rw [writeArgs, List.append_assoc]
    exact apart_cons_of_isBlank (by decide) _

/-- The arguments of an application are read one after the other. -/
theorem outcome_readArgs_write {args : List Source}
    (hargs : ∀ source ∈ args, ReadsAsAtom (source.write true) source.reread) {rest : List Char}
    (hrest : Closed rest) :
    outcome (readArgs (writeArgs args ++ rest)) =
      (rereadAll args).map fun args => (args, Text.skipBlanks rest) := by
  induction args with
  | nil => exact outcome_readArgs_stop hrest.stop
  | cons source args ih =>
    obtain ⟨c, cs, htext, hc, hblank, hread⟩ := hargs source List.mem_cons_self
    have hskip : Text.skipBlanks (writeArgs (source :: args) ++ rest) =
        c :: (cs ++ (writeArgs args ++ rest)) := by
      rw [writeArgs, htext, ← skipBlanks_cons hblank (cs ++ (writeArgs args ++ rest))]
      simp [Text.skipBlanks, (by decide : Text.isBlank ' ' = true)]
    rw [outcome_readArgs_cons hskip hc, hread _ (hrest.apart_writeArgs args), rereadAll]
    cases source.reread with
    | none => rfl
    | some first =>
      simp only [Option.map_some, Option.bind_some,
        ih fun source h => hargs source (List.mem_cons_of_mem _ h), Option.map_map]
      rfl

/-- An application is read with its arguments. -/
theorem readsAs_app {name : String} (hname : isIdentifier name = true) {args : List Source}
    (hargs : ∀ source ∈ args, ReadsAsAtom (source.write true) source.reread) :
    ReadsAs (name.toList ++ writeArgs args) (reread (.app name args)) := by
  obtain ⟨c, cs, hcons, hc, hcs⟩ := isIdentifier_iff.1 hname
  intro rest hrest
  have hskip : Text.skipBlanks (name.toList ++ writeArgs args ++ rest) =
      c :: (cs ++ (writeArgs args ++ rest)) := by
    rw [hcons, List.append_assoc, List.cons_append,
      skipBlanks_cons (isBlank_of_isIdentStart hc) _]
  rw [outcome_readExpr_app hskip hc, ident_append hcons hcs (hrest.apart_writeArgs args),
    outcome_readArgs_write hargs hrest, reread]
  cases rereadAll args <;> rfl

/-- The text of an argument is an atom. -/
theorem Legible.readsAsAtom {source : Source} (h : source.Legible) :
    ReadsAsAtom (source.write true) source.reread := by
  induction source using Source.induction with
  | hole index =>
    cases h with
    | hole h => exact readsAsAtom_hole h
  | lit value =>
    cases h with
    | lit h =>
      rw [write, reread]
      cases value.isNegative with
      | true => exact (readsAsAtom_literal h).readsAs.parenthesize
      | false => exact readsAsAtom_literal h
  | app name args ih =>
    cases h with
    | app hname hargs =>
      cases args with
      | nil =>
        rw [write, writeArgs, List.append_nil]
        exact readsAsAtom_ident hname
      | cons first args =>
        exact (readsAs_app hname fun source hmem => ih source hmem (hargs source hmem)).parenthesize

/-- The text of a source is an expression. -/
theorem Legible.readsAs {source : Source} (h : source.Legible) :
    ReadsAs (source.write false) source.reread := by
  cases h with
  | hole h => exact (readsAsAtom_hole h).readsAs
  | lit h => exact (readsAsAtom_literal h).readsAs
  | app hname hargs => exact readsAs_app hname fun source hmem => (hargs source hmem).readsAsAtom

end Source

end Polyglot
