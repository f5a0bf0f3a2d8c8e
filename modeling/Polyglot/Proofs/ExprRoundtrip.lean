import Polyglot.Proofs.Expr.History

/-!
# Expressions are read back

The text of a stored expression is read as the id that it has, and nothing new is stored for it:
the reader finds every name and every node again. This needs names that the reader takes for
identifiers, and numbers that are finite. What was read from a text has such names; but a number in
a text may be too large for a float, and it is then read as an infinite one, whose text is not that
of a number.

- `Stores.read_text`: printing and reading of any expression.
- `Stores.reread_iff_finite`: reading, printing and reading again, of any text.
- `Stores.reread_overflow`: a text for which this fails.
-/

namespace Polyglot

open ExprStore Source

namespace Stores

variable {s s' : Stores} {ids : List ExprId} {id : ExprId} {e : Expr} {source : Source}

/-- The text of a stored expression is that of its source. -/
theorem text_of_source? (he : s.exprs.expr? id = some e)
    (hsource : e.source? s.symbols = some source) :
    s.text id = .ok (String.ofList (source.write false)) := by
  rw [Stores.text, ExprStore.text, he]
  simp only [Expr.text, Expr.write_of_source? hsource]
  rfl

/-- A reading that succeeds has read some source. -/
theorem exists_source_of_read {text : String} (h : (s.read text).1 = .ok id) :
    ∃ source, Source.read text.toList = .ok source ∧ (s.internSource source).1 = id ∧
      (s.read text).2 = (s.internSource source).2 := by
  rw [Stores.read] at h ⊢
  cases hread : Source.read text.toList with
  | error f =>
    rw [hread] at h
    cases h
  | ok source =>
    rw [hread] at h
    exact ⟨source, rfl, Except.ok.inj h, rfl⟩

/-- The text of what is stored is read as the id that it has, if its source is what it is read
as. -/
theorem read_write (hsound : s.exprs.Sound) (he : s.exprs.expr? id = some e)
    (hsource : e.source? s.symbols = some source) (hlegible : source.Legible)
    (hfinite : source.Finite) {before after : String} (hbefore : Blank before.toList)
    (hafter : Tail after.toList) :
    s.read (before ++ String.ofList (source.write false) ++ after) = (.ok id, s) := by
  have hread : (Source.read
      (before ++ String.ofList (source.write false) ++ after).toList).toOption = some source := by
    rw [String.toList_append, String.toList_append, String.toList_ofList,
      hlegible.readsAs.toOption_read hbefore hafter, hfinite.reread_eq]
  rw [read_of_source hread, internSource_of_spells hsound source he (spells_of_source? hsource)]

/-- **What is written is read back.** For every store that was made by calls, every expression in
it whose functions are named by identifiers, and which has no numbers out of range and no floats
that are not finite: it has a text, and whatever white space there is around this text, with a
semicolon at the end or without one, it is read as the id that the expression has, and no name and
no node is added. -/
theorem read_text (hcalls : Calls [] {} ids s.exprs) (he : s.exprs.expr? id = some e)
    (hsource : e.source? s.symbols = some source) (hlegible : source.Legible)
    (hfinite : source.Finite) :
    ∃ text, s.text id = .ok text ∧
      ∀ before after : String, Blank before.toList → Tail after.toList →
        s.read (before ++ text ++ after) = (.ok id, s) := by
  obtain ⟨hsound, -, -⟩ := hcalls.sound sound_empty nofun
  exact ⟨_, text_of_source? he hsource, fun before after hbefore hafter =>
    read_write hsound he hsource hlegible hfinite hbefore hafter⟩

/-- The expression `f (g (-7)) "\"" 0.5 ?3`. -/
theorem read_text_nested : ∃ (s : Stores) (ids : List ExprId) (e : Expr) (source : Source),
    Calls [] {} ids s.exprs ∧ s.exprs.expr? ⟨5⟩ = some e ∧ e.source? s.symbols = some source ∧
      String.ofList (source.write false) = "f (g (-7)) \"\\\"\" 0.5 ?3" ∧
      source.Legible ∧ source.Finite ∧
      ∃ text, s.text ⟨5⟩ = .ok text ∧
        ∀ before after : String, Blank before.toList → Tail after.toList →
          s.read (before ++ text ++ after) = (.ok ⟨5⟩, s) := by
  have h₁ : Calls [] {} _ _ := Calls.none.call (.lit (.int (-7))) nofun
  have h₂ := h₁.call (.app ⟨1⟩ [⟨0⟩]) (by decide +kernel)
  have h₃ := h₂.call (.lit (.str "\"")) nofun
  have h₄ := h₃.call (.lit (.float ⟨0x3fe0000000000000⟩)) nofun
  have h₅ := h₄.call (.hole 3) nofun
  have hcalls := h₅.call (.app ⟨0⟩ [⟨1⟩, ⟨2⟩, ⟨3⟩, ⟨4⟩]) (by decide +kernel)
  generalize hexprs : (ExprStore.call _ (.app ⟨0⟩ _)).2 = exprs at hcalls
  have hnodes : exprs.nodes = #[.lit (.int (-7)), .app ⟨1⟩ [⟨0⟩], .lit (.str "\""),
      .lit (.float ⟨0x3fe0000000000000⟩), .hole 3, .app ⟨0⟩ [⟨1⟩, ⟨2⟩, ⟨3⟩, ⟨4⟩]] := by
    rw [← hexprs]
    decide +kernel
  have hnode : ∀ id : ExprId, exprs.resolve? id = exprs.nodes[id.index]? := fun _ => rfl
  rw [hnodes] at hnode
  have hinner : exprs.expr? ⟨1⟩ = some (.app ⟨1⟩ [.lit (.int (-7))]) :=
    expr?_eq_app_iff.2 ⟨[⟨0⟩], hnode _, .cons ⟨by decide, expr?_eq_lit_iff.2 (hnode _)⟩ .nil⟩
  have he : exprs.expr? ⟨5⟩ = some (.app ⟨0⟩ [.app ⟨1⟩ [.lit (.int (-7))], .lit (.str "\""),
      .lit (.float ⟨0x3fe0000000000000⟩), .hole 3]) :=
    expr?_eq_app_iff.2 ⟨[⟨1⟩, ⟨2⟩, ⟨3⟩, ⟨4⟩], hnode _, .cons ⟨by decide, hinner⟩
      (.cons ⟨by decide, expr?_eq_lit_iff.2 (hnode _)⟩
        (.cons ⟨by decide, expr?_eq_lit_iff.2 (hnode _)⟩
          (.cons ⟨by decide, expr?_eq_hole_iff.2 (hnode _)⟩ .nil)))⟩
  have hsource : Expr.source? ⟨#["f", "g"], by decide⟩
      (.app ⟨0⟩ [.app ⟨1⟩ [.lit (.int (-7))], .lit (.str "\""),
        .lit (.float ⟨0x3fe0000000000000⟩), .hole 3]) =
      some (.app "f" [.app "g" [.lit (.int (-7))], .lit (.str "\""),
        .lit (.float ⟨0x3fe0000000000000⟩), .hole 3]) := rfl
  have hlegible : Legible (.app "f" [.app "g" [.lit (.int (-7))], .lit (.str "\""),
      .lit (.float ⟨0x3fe0000000000000⟩), .hole 3]) := by
    refine .app (by decide +kernel) ?_
    simp only [List.forall_mem_cons, List.not_mem_nil, false_implies, implies_true, and_true]
    refine ⟨.app (by decide +kernel) ?_, .lit trivial, .lit trivial, .hole (by decide)⟩
    exact List.forall_mem_singleton.2 (.lit ⟨by decide, by decide⟩)
  have hfinite : Finite (.app "f" [.app "g" [.lit (.int (-7))], .lit (.str "\""),
      .lit (.float ⟨0x3fe0000000000000⟩), .hole 3]) := by
    refine .app ?_
    simp only [List.forall_mem_cons, List.not_mem_nil, false_implies, implies_true, and_true]
    refine ⟨.app (List.forall_mem_singleton.2 (.lit nofun)), .lit nofun, .lit ?_, .hole 3⟩
    rintro _ ⟨⟩
    decide +kernel
  exact ⟨⟨_, exprs⟩, _, _, _, hcalls, he, hsource, by decide +kernel, hlegible, hfinite,
    read_text (s := ⟨_, exprs⟩) hcalls he hsource hlegible hfinite⟩

/-- **What was read can be written, and is read back unless a number was too large.** For every
store that was made by calls and every text that is read with success: the expression that was read
has a text, and this is read as the same id if and only if none of its floats is infinite; then no
name and no node is added. -/
theorem reread_iff_finite (hcalls : Calls [] {} ids s.exprs) {text : String}
    (hread : s.read text = (.ok id, s')) :
    ∃ e source text', s'.exprs.expr? id = some e ∧ e.source? s'.symbols = some source ∧
      source.Legible ∧ s'.text id = .ok text' ∧
      (source.Finite → s'.read text' = (.ok id, s')) ∧
      ((s'.read text').1 = .ok id → source.Finite) := by
  obtain ⟨hsound, -, -⟩ := hcalls.sound sound_empty nofun
  obtain ⟨source₀, hsource₀, hid, hs'⟩ := exists_source_of_read (congrArg Prod.fst hread)
  obtain ⟨rfl, rfl⟩ : (s.internSource source₀).1 = id ∧ (s.internSource source₀).2 = s' :=
    ⟨hid, hs'.symm.trans (congrArg Prod.snd hread)⟩
  have hstored := stored_internSource s hsound source₀
  obtain ⟨-, hholds⟩ := internSource_spec s hsound source₀
  generalize (s.internSource source₀).1 = id at hstored hholds
  generalize (s.internSource source₀).2 = s' at hstored hholds
  obtain ⟨e, he, hspells⟩ := hholds.exists_expr?
  obtain ⟨source, hsource, hlegible⟩ := hspells.exists_source? (legible_of_read hsource₀)
  refine ⟨e, source, _, he, hsource, hlegible, text_of_source? he hsource, fun hfinite => ?_,
    fun hagain => ?_⟩
  · have hempty : Blank "".toList := nofun
    simpa using read_write hstored.sound he hsource hlegible hfinite hempty (.blank hempty)
  · -- what is read then stands for what the id stands for
    obtain ⟨source', hsource', hid', -⟩ := exists_source_of_read hagain
    have hreread : source.reread = some source' := by
      have hempty : Blank [] := nofun
      rw [← hlegible.readsAs.toOption_read hempty (.blank hempty), List.nil_append,
        List.append_nil, ← String.toList_ofList (l := source.write false), hsource']
      rfl
    obtain ⟨hsymbols, hholds'⟩ := internSource_spec s' hstored.sound source'
    obtain ⟨e', he', hspells'⟩ := hholds'.exists_expr?
    have hkeeps := (stored_internSource s' hstored.sound source').keeps
    rw [hid', hkeeps.expr? he, Option.some.injEq] at he'
    subst he'
    exact finite_of_reread ((spells_of_source? hsource).extends hsymbols) hreread hspells'

/-- A text with more parentheses than are written for the expression in it. -/
theorem reread_iff_finite_parentheses : ∃ s' : Stores, Calls [] {} [] ({} : Stores).exprs ∧
    Stores.read {} "(g (-7)) ;" = (.ok ⟨1⟩, s') ∧
      ∃ e source text', s'.exprs.expr? ⟨1⟩ = some e ∧ e.source? s'.symbols = some source ∧
        source.Legible ∧ s'.text ⟨1⟩ = .ok text' ∧
        (source.Finite → s'.read text' = (.ok ⟨1⟩, s')) ∧
        ((s'.read text').1 = .ok ⟨1⟩ → source.Finite) := by
  have hnumber : Legible (.lit (.int (-7))) := .lit ⟨by decide, by decide⟩
  have happ := readsAs_app (by decide +kernel : Source.isIdentifier "g" = true)
    (List.forall_mem_singleton.2 hnumber.readsAsAtom)
  have hempty : Blank [] := nofun
  have hspace : Blank [' '] := List.forall_mem_singleton.2 (by decide)
  have hsource := happ.parenthesize.readsAs.toOption_read hempty (.semicolon hspace hempty)
  have htext : "(g (-7)) ;".toList = [] ++ parenthesize true
      ("g".toList ++ writeArgs [.lit (.int (-7))]) ++ ([' '] ++ ';' :: []) := by decide +kernel
  have hid : (internSource {} (.app "g" [.lit (.int (-7))])).1 = ⟨1⟩ := by decide +kernel
  have hread : Stores.read {} "(g (-7)) ;" =
      (.ok ⟨1⟩, (internSource {} (.app "g" [.lit (.int (-7))])).2) := by
    rw [read_of_source (htext ▸ hsource), hid]
  exact ⟨_, .none, hread, reread_iff_finite (s := {}) .none hread⟩

/-- The infinite float. -/
def infinity : Double := .ofMagnitude false Double.infinityMagnitude

/-- A number beyond all floats is read as an infinite one. -/
theorem toOption_read_overflow :
    (Source.read "1e999".toList).toOption = some (.lit (.float infinity)) := by
  have hproper : Numeral.Proper ⟨false, ['1'], none, some (false, ['9', '9', '9'])⟩ :=
    ⟨by decide, by simp, nofun, by rintro _ ⟨⟩; simp⟩
  have hstrip : Decimal.strip 1 999 = ⟨1, 999⟩ := by
    unfold Decimal.strip
    norm_num
  have hempty : Blank [] := nofun
  have hliteral := hproper.literal_eq (.inr rfl)
    (Numeral.write ⟨false, ['1'], none, some (false, ['9', '9', '9'])⟩)
  have hread := (readsAsAtom_numeral hproper hliteral).readsAs.toOption_read hempty (.blank hempty)
  have hvalue : Numeral.coeff ⟨false, ['1'], none, some (false, ['9', '9', '9'])⟩ = 1 ∧
      Numeral.exp ⟨false, ['1'], none, some (false, ['9', '9', '9'])⟩ = 999 := by decide +kernel
  rw [hvalue.1, hvalue.2, hstrip] at hread
  exact hread

/-- The number `1e999` is written as `inf`, and this is read as a function of that name. -/
theorem reread_overflow : ∃ s' s'' : Stores,
    Stores.read {} "1e999" = (.ok ⟨0⟩, s') ∧ s'.text ⟨0⟩ = .ok "inf" ∧
      s'.read "inf" = (.ok ⟨1⟩, s'') ∧ s'.symbols.size = 0 ∧ s''.symbols.size = 1 := by
  have hempty : Blank [] := nofun
  have hid : (internSource {} (.lit (.float infinity))).1 = ⟨0⟩ := by decide +kernel
  have hread : Stores.read {} "1e999" =
      (.ok ⟨0⟩, (internSource {} (.lit (.float infinity))).2) := by
    rw [read_of_source toOption_read_overflow, hid]
  have he : (internSource {} (.lit (.float infinity))).2.exprs.expr? ⟨0⟩ =
      some (.lit (.float infinity)) := expr?_eq_lit_iff.2 (by decide +kernel)
  have hident : Source.isIdentifier "inf" = true := by decide +kernel
  have hagain := (readsAsAtom_ident hident).readsAs.toOption_read hempty (.blank hempty)
  rw [List.nil_append, List.append_nil] at hagain
  have hid' : (internSource (internSource {} (.lit (.float infinity))).2 (.app "inf" [])).1 =
      ⟨1⟩ := by decide +kernel
  have hread' : (internSource {} (.lit (.float infinity))).2.read "inf" =
      (.ok ⟨1⟩, (internSource (internSource {} (.lit (.float infinity))).2 (.app "inf" [])).2) := by
    rw [read_of_source hagain, hid']
  refine ⟨_, _, hread, ?_, hread', by decide +kernel, by decide +kernel⟩
  rw [text_of_source? he rfl]
  decide +kernel

end Stores

end Polyglot
