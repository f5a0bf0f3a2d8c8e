import Polyglot.Proofs.Chart.Exactness
import Polyglot.Proofs.Grammar.Acceptance
import Polyglot.Proofs.Grammar.Recording
import Polyglot.Proofs.Lists

/-!
# A finished grammar is what was declared

Names may be declared again, with other contexts, arguments and results. A function keeps the place
of its first declaration and is otherwise as its last one has it; when a grammar is finished it is
listed under its result category, and under no other one. The concrete syntaxes are those that were
declared, each with all that its declarations made.

- `functionNames`, `concretesMade`: what declarations declare, in order.
- `Abstract.Records`: the functions of an abstract syntax are as they were declared.
- `Draft.Recorded`: what is known of a draft while declarations are taken in.
- `Grammar.Records`, `Grammar.records_of_build`: a grammar that was built is what its declarations
  said.
-/

namespace Polyglot

/-! ## What is declared -/

/-- The names of the functions that are declared, in order, as often as they are declared. -/
def functionNames (ds : List Declaration) : List String :=
  ds.filterMap fun
    | .function name _ _ => some name
    | _ => none

/-- The names of the categories that are declared, in order, as often as they are declared. -/
def categoryNames (ds : List Declaration) : List String :=
  ds.filterMap fun
    | .category name _ => some name
    | _ => none

/-- The concrete syntaxes that are declared, each with its declarations and what they made. -/
def concretesMade (ds : List Declaration) (mades : List (List Made)) :
    List (String × List ConcreteDeclaration × List Made) :=
  (ds.zip mades).filterMap fun
    | (.concrete name cs, made) => some (name, cs, made)
    | _ => none

/-- The functions of an abstract syntax are as they were declared. -/
structure Abstract.Records (a : Abstract) (symbols : SymbolStore) (ds : List Declaration) :
    Prop where
  /-- Every function is there once, in the order of first declarations. -/
  order : symbols.Finds (functionNames ds).eraseDups (a.funs.map (·.name))
  /-- It is as its last declaration has it. -/
  last : ∀ name args cat, DeclaresFunction ds name args cat →
    ∃ f ∈ a.funs, f.Spelled symbols name args cat
  /-- A category lists the functions that it is the result of, in order. -/
  functions : ∀ k ∈ a.cats,
    k.functions = (a.funs.filter (·.cat = k.name)).map fun f => (f.name, f.prob)
  /-- There is one category that lists a function, its result, and it does so once. -/
  listed : ∀ f ∈ a.funs, ∃ k, k.name = f.cat ∧
    a.cats.filter (·.functions.any (·.1 = f.name)) = [k] ∧
    k.functions.filter (·.1 = f.name) = [(f.name, f.prob)]

/-- A grammar is what its declarations said and made. -/
structure Grammar.Records (g : Grammar) (w : WrittenGrammar) : Prop where
  answered : w.draft.1.length = w.declarations.length
  abs : g.abs.Records w.draft.2.symbols w.declarations
  /-- The concrete syntaxes are those that were declared, in order. -/
  concretes : List.Forall₂ (fun made c => w.draft.2.symbols.find? made.1 = some c.name ∧
    c.Records w.draft.2.symbols made.2.1 made.2.2) (concretesMade w.declarations w.draft.1)
    g.concretes
  /-- Ids of sequences are equal exactly if the sequences were written alike. -/
  shared : ∀ c ∈ g.concretes, ∀ a b written written', c.Resolves w.draft.2.symbols a written →
    c.Resolves w.draft.2.symbols b written' → (a = b ↔ written = written')

/-! ## One name, one place -/

section Once

variable {α β : Type} [DecidableEq β]

/-- What is declared again keeps its place; what is new is put last. -/
theorem Draft.map_redeclare (f : α → β) (a : α) (as : List α) :
    (redeclare (f · = f a) a as).map f =
      if f a ∈ as.map f then as.map f else as.map f ++ [f a] := by
  unfold redeclare
  by_cases hany : f a ∈ as.map f
  · have hany' : as.any (f · = f a) := by
      obtain ⟨b, hb, heq⟩ := List.mem_map.1 hany
      exact List.any_eq_true.2 ⟨b, hb, by simpa using heq⟩
    rw [if_pos hany', if_pos hany, List.map_map]
    refine List.map_congr_left fun b _ => ?_
    by_cases hsame : f b = f a
    · simp [hsame]
    · simp [hsame]
  · have hany' : ¬ as.any (f · = f a) := by
      intro h
      obtain ⟨b, hb, heq⟩ := List.any_eq_true.1 h
      exact hany (List.mem_map.2 ⟨b, hb, by simpa using heq⟩)
    rw [if_neg hany', if_neg hany, List.map_append, List.map_singleton]

/-- Of members with different keys, only one has the key of a member. -/
theorem filter_eq_singleton_of_nodup {f : α → β} {as : List α} (h : (as.map f).Nodup) {a : α}
    (ha : a ∈ as) : as.filter (f · = f a) = [a] := by
  induction as with
  | nil => cases ha
  | cons b as ih =>
    rw [List.map_cons, List.nodup_cons] at h
    rcases List.mem_cons.1 ha with rfl | ha
    · have hrest : as.filter (f · = f a) = [] := by
        rw [List.filter_eq_nil_iff]
        intro b hb
        have hne : f b ≠ f a := fun heq => h.1 (heq ▸ List.mem_map_of_mem hb)
        simpa using hne
      rw [List.filter_cons_of_pos (by simp), hrest]
    · have hne : f b ≠ f a := fun heq => h.1 (heq ▸ List.mem_map_of_mem ha)
      rw [List.filter_cons_of_neg (by simpa using hne)]
      exact ih h.2 ha

/-- Nor has any other one among those of them that satisfy something. -/
theorem filter_filter_of_nodup {f : α → β} {as : List α} (h : (as.map f).Nodup) {a : α}
    (ha : a ∈ as) (p : α → Bool) :
    (as.filter p).filter (f · = f a) = if p a then [a] else [] := by
  have hswap : (as.filter p).filter (f · = f a) = (as.filter (f · = f a)).filter p := by
    rw [List.filter_filter, List.filter_filter]
    exact List.filter_congr fun b _ => Bool.and_comm ..
  rw [hswap, filter_eq_singleton_of_nodup h ha, List.filter_singleton, cond_eq_ite]

end Once

namespace SymbolStore

variable {s s' : SymbolStore} {names : List String} {syms : List Sym} {name : String} {sym : Sym}

/-- Names and handles have their first occurrences at the same places. -/
theorem Finds.eraseDups_concat (h : s.Finds names.eraseDups syms) (hextends : s.Extends s')
    (hname : s'.find? name = some sym) :
    s'.Finds (names ++ [name]).eraseDups (if sym ∈ syms then syms else syms ++ [sym]) := by
  have hfinds := hextends.finds h
  have hmem : name ∈ names ↔ sym ∈ syms := by
    rw [← List.mem_eraseDups]
    constructor
    · intro hmem
      obtain ⟨sym', hsym', hfind⟩ := hfinds.exists_mem hmem
      rwa [Option.some.inj (hname.symm.trans hfind)]
    · intro hmem
      obtain ⟨name', hname', hfind⟩ := hfinds.exists_find? hmem
      rwa [eq_of_find? hname hfind]
  rw [Polyglot.eraseDups_concat]
  by_cases hold : name ∈ names
  · rwa [if_pos hold, if_pos (hmem.1 hold)]
  · rw [if_neg hold, if_neg fun hsym => hold (hmem.2 hsym), Finds, List.map_append, hfinds,
      List.map_append]
    exact congrArg (fun o => syms.map some ++ [o]) hname

end SymbolStore

/-! ## Drafts -/

theorem Concrete.Records.mono {c : Concrete} {symbols symbols' : SymbolStore}
    {ds : List ConcreteDeclaration} {mades : List Made} (h : c.Records symbols ds mades)
    (hextends : symbols.Extends symbols') : c.Records symbols' ds mades := by
  have hgrows : c.Grows c :=
    ⟨fun id inst hinst => ⟨inst, hinst, rfl, rfl⟩, List.prefix_rfl, List.prefix_rfl⟩
  obtain ⟨hinstances, hdeclared, hdistinct⟩ := h.categories
  refine { h with held := h.held.imp fun _ _ hheld => hheld.mono hgrows hextends, categories := ?_ }
  refine ⟨fun k hk => ?_, fun name count labels made hmem => ?_, hdistinct⟩
  · obtain ⟨name, hname, heq⟩ := hinstances k hk
    exact ⟨name, hextends.find? hname, heq⟩
  · obtain ⟨k, hk, hname⟩ := hdeclared name count labels made hmem
    exact ⟨k, hk, hextends.find? hname⟩

namespace Draft

variable {ds : List Declaration} {mades : List (List Made)} {x : Declaration} {made : List Made}

/-- What is known of a draft when declarations have been taken in. -/
structure Recorded (ds : List Declaration) (mades : List (List Made)) (d : Draft) : Prop where
  answered : mades.length = ds.length
  categories : d.symbols.Finds (categoryNames ds).eraseDups (d.abs.cats.map (·.name))
  functions : d.symbols.Finds (functionNames ds).eraseDups (d.abs.funs.map (·.name))
  concretes : d.error = none → List.Forall₂ (fun made c =>
    d.symbols.find? made.1 = some c.name ∧ c.Records d.symbols made.2.1 made.2.2)
    (concretesMade ds mades) d.concretes

theorem Recorded.concretes_mono {d : Draft} (h : Recorded ds mades d) {symbols : SymbolStore}
    (hextends : d.symbols.Extends symbols) (hnone : d.error = none) :
    List.Forall₂ (fun made c => symbols.find? made.1 = some c.name ∧
      c.Records symbols made.2.1 made.2.2) (concretesMade ds mades) d.concretes :=
  (h.concretes hnone).imp fun _ _ ⟨hname, hrecords⟩ =>
    ⟨hextends.find? hname, hrecords.mono hextends⟩

theorem concretesMade_concat (h : mades.length = ds.length) :
    concretesMade (ds ++ [x]) (mades ++ [made]) =
      concretesMade ds mades ++ concretesMade [x] [made] := by
  rw [concretesMade, List.zip_append h.symm, List.filterMap_append]
  rfl

/-- What is no concrete syntax leaves those that there are alone. -/
theorem Recorded.keep {d d' : Draft} (h : Recorded ds mades d)
    (hextends : d.symbols.Extends d'.symbols) (hx : ∀ name cs, x ≠ .concrete name cs)
    (hconcretes : d'.concretes = d.concretes) (herror : d'.error = d.error)
    (hcats : d'.symbols.Finds (categoryNames (ds ++ [x])).eraseDups (d'.abs.cats.map (·.name)))
    (hfuns : d'.symbols.Finds (functionNames (ds ++ [x])).eraseDups
      (d'.abs.funs.map (·.name))) : Recorded (ds ++ [x]) (mades ++ [made]) d' := by
  refine ⟨?_, hcats, hfuns, fun hnone => ?_⟩
  · rw [List.length_append, List.length_append, h.answered]
    rfl
  · have hempty : concretesMade [x] [made] = [] := by
      cases x with
      | concrete name cs => exact absurd rfl (hx name cs)
      | _ => rfl
    rw [concretesMade_concat h.answered, hempty, List.append_nil, hconcretes]
    exact h.concretes_mono hextends (herror ▸ hnone)

theorem categoryNames_concat : categoryNames (ds ++ [x]) = categoryNames ds ++ categoryNames [x] :=
  List.filterMap_append

theorem functionNames_concat : functionNames (ds ++ [x]) = functionNames ds ++ functionNames [x] :=
  List.filterMap_append

/-- What is no category leaves the order of the categories alone. -/
theorem Recorded.categories_keep {d : Draft} (h : Recorded ds mades d) {symbols : SymbolStore}
    (hextends : d.symbols.Extends symbols) (hx : ∀ name context, x ≠ .category name context) :
    symbols.Finds (categoryNames (ds ++ [x])).eraseDups (d.abs.cats.map (·.name)) := by
  have hempty : categoryNames [x] = [] := by
    cases x with
    | category name context => exact absurd rfl (hx name context)
    | _ => rfl
  rw [categoryNames_concat, hempty, List.append_nil]
  exact hextends.finds h.categories

/-- What is no function leaves the order of the functions alone. -/
theorem Recorded.functions_keep {d : Draft} (h : Recorded ds mades d) {symbols : SymbolStore}
    (hextends : d.symbols.Extends symbols) (hx : ∀ name args cat, x ≠ .function name args cat) :
    symbols.Finds (functionNames (ds ++ [x])).eraseDups (d.abs.funs.map (·.name)) := by
  have hempty : functionNames [x] = [] := by
    cases x with
    | function name args cat => exact absurd rfl (hx name args cat)
    | _ => rfl
  rw [functionNames_concat, hempty, List.append_nil]
  exact hextends.finds h.functions

/-- A concrete syntax is recorded with all that its declarations made. -/
theorem Recorded.concrete {d : Draft} (h : Recorded ds mades d) (name : String)
    (cs : List ConcreteDeclaration) :
    Recorded (ds ++ [.concrete name cs]) (mades ++ [(d.declare (.concrete name cs)).1])
      (d.declare (.concrete name cs)).2 := by
  have hextends := (d.known_opened name cs).1
  have hcerror := ((d.opened name).declareAll_spec cs).2
  have hcats := h.categories_keep (x := .concrete name cs) hextends nofun
  have hfuns := h.functions_keep (x := .concrete name cs) hextends nofun
  have hanswered : (mades ++ [((d.opened name).declareAll cs).1]).length =
      (ds ++ [Declaration.concrete name cs]).length := by
    simp [h.answered]
  rw [Draft.declare_concrete]
  dsimp only
  split
  · rename_i hnone
    refine ⟨hanswered, hcats, hfuns, fun herror => ?_⟩
    rw [concretesMade_concat h.answered]
    have horder : InOrder 0 cs := (hcerror.1 hnone).2
    have hrecords := (Concrete.records_start (d.symbols.intern name).1
      (d.symbols.intern name).2).declareAll (d := d.opened name) nofun horder
    exact List.rel_append (h.concretes_mono hextends herror)
      (.cons ⟨d.find?_opened name cs, hrecords⟩ .nil)
  · rename_i e herror
    refine ⟨hanswered, hcats, hfuns, fun hnone => ?_⟩
    cases hold : d.error <;> simp [hold] at hnone

/-- One more declaration is recorded. -/
theorem Recorded.declare {d : Draft} (h : Recorded ds mades d) (x : Declaration) :
    Recorded (ds ++ [x]) (mades ++ [(d.declare x).1]) (d.declare x).2 := by
  cases x with
  | flag name value =>
    exact h.keep (.refl _) nofun rfl rfl (h.categories_keep (.refl _) nofun)
      (h.functions_keep (.refl _) nofun)
  | category name context =>
    have hname := d.symbols.extends_intern name
    have hcontext := (SymbolStore.internAll_spec (d.symbols.intern name).2 context).1
    have hextends := hname.trans hcontext
    have hfind := hcontext.find? (d.symbols.find?_intern name)
    refine h.keep hextends nofun rfl rfl ?_ (h.functions_keep hextends nofun)
    rw [categoryNames_concat]
    have hfinds := h.categories.eraseDups_concat hextends hfind
    rwa [← map_redeclare AbstractCategory.name { name := (d.symbols.intern name).1
                                                 context := _ }] at hfinds
  | function name args cat =>
    have hname := d.symbols.extends_intern name
    have hargs := (SymbolStore.internAll_spec (d.symbols.intern name).2 args).1
    have hcat := ((d.symbols.intern name).2.internAll args).2.extends_intern cat
    have hextends := (hname.trans hargs).trans hcat
    have hfind := (hargs.trans hcat).find? (d.symbols.find?_intern name)
    refine h.keep hextends nofun rfl rfl (h.categories_keep hextends nofun) ?_
    rw [functionNames_concat]
    have hfinds := h.functions.eraseDups_concat hextends hfind
    rwa [← map_redeclare AbstractFunction.name { name := (d.symbols.intern name).1
                                                 args := _, cat := _ }] at hfinds
  | probability fn p =>
    have hextends := d.symbols.extends_intern fn
    exact h.keep hextends nofun rfl rfl (h.categories_keep hextends nofun)
      (h.functions_keep hextends nofun)
  | concrete name cs => exact h.concrete name cs

theorem Recorded.declareAll {d : Draft} (h : Recorded ds mades d) (xs : List Declaration) :
    Recorded (ds ++ xs) (mades ++ (d.declareAll xs).1) (d.declareAll xs).2 := by
  induction xs generalizing ds mades d with
  | nil =>
    rw [List.append_nil]
    exact (List.append_nil mades).symm ▸ h
  | cons x xs ih =>
    have hall := ih (h.declare x)
    rwa [List.append_assoc, List.append_assoc, List.singleton_append, List.singleton_append]
      at hall

theorem recorded_start (name : String) : Recorded [] [] (start name) :=
  ⟨rfl, rfl, rfl, fun _ => .nil⟩

/-- What a category of a finished draft lists of a function is there if it is its result. -/
theorem filter_functions_weighted {d : Draft} (hfuns : (d.weighted.funs.map (·.name)).Nodup)
    {f : AbstractFunction} (hf : f ∈ d.weighted.funs) {k : AbstractCategory}
    (hk : k ∈ d.weighted.cats) : k.functions.filter (·.1 = f.name) =
      if f.cat = k.name then [(f.name, f.prob)] else [] := by
  obtain ⟨k', -, rfl⟩ := List.mem_map.1 hk
  show ((d.weighted.funs.filter (·.cat = k'.name)).map fun f => (f.name, f.prob)).filter
    (·.1 = f.name) = if f.cat = k'.name then [(f.name, f.prob)] else []
  rw [List.filter_map]
  refine (congrArg (List.map _) (filter_filter_of_nodup hfuns hf _)).trans ?_
  by_cases hcat : f.cat = k'.name
  · simp [hcat]
  · simp [hcat]

/-- The functions of a draft, with their probabilities, are listed under their results. -/
theorem Recorded.weighted {d : Draft} (h : Recorded ds mades d) (hreads : Reads ds d)
    (hdeclared : ∀ f ∈ d.abs.funs, d.abs.Declares f.cat) :
    d.weighted.Records d.symbols ds := by
  have hnames : d.weighted.funs.map (·.name) = d.abs.funs.map (·.name) := by
    simp [Draft.weighted]
  have hfuns : (d.weighted.funs.map (·.name)).Nodup :=
    hnames ▸ h.functions.nodup_iff.1 (nodup_eraseDups _)
  have hcats : (d.weighted.cats.map (·.name)).Nodup := by
    have hsame : d.weighted.cats.map (·.name) = d.abs.cats.map (·.name) := by
      simp [Draft.weighted]
    exact hsame ▸ h.categories.nodup_iff.1 (nodup_eraseDups _)
  refine ⟨hnames.symm ▸ h.functions, fun name args cat hlast => ?_, fun k hk => ?_, fun f hf => ?_⟩
  · obtain ⟨f, hf, hspelled⟩ := hreads.functions.taken name args cat hlast
    exact ⟨_, List.mem_map_of_mem hf, hspelled.name, hspelled.args, hspelled.cat⟩
  · obtain ⟨k', -, rfl⟩ := List.mem_map.1 hk
    rfl
  · obtain ⟨k, hk, hname⟩ : d.weighted.Declares f.cat := by
      obtain ⟨f', hf', rfl⟩ := List.mem_map.1 hf
      exact declares_weighted.2 (hdeclared f' hf')
    refine ⟨k, hname, ?_, by rw [filter_functions_weighted hfuns hf hk, if_pos hname.symm]⟩
    rw [← filter_eq_singleton_of_nodup hcats hk]
    refine List.filter_congr fun k' hk' => ?_
    have hlisted := filter_functions_weighted hfuns hf hk'
    have hany : k'.functions.any (·.1 = f.name) = true ↔ f.cat = k'.name := by
      rw [← not_iff_not, Bool.not_eq_true, List.any_eq_false, ← List.filter_eq_nil_iff, hlisted]
      exact ite_eq_right_iff.trans (by simp)
    rw [Bool.eq_iff_iff, hany, decide_eq_true_iff, hname, eq_comm]

end Draft

/-! ## Grammars -/

/-- A grammar that was built is what its declarations said. -/
theorem Grammar.records_of_build {w : WrittenGrammar} {g : Grammar} (h : w.build = .ok g) :
    g.Records w := by
  have hrecorded := (Draft.recorded_start w.name).declareAll w.declarations
  have hreads := w.reads_draft
  obtain ⟨hnone, hcheck, -, rfl⟩ := Draft.finish_eq_ok_iff.1 h
  have hconcretes := hrecorded.concretes hnone
  refine ⟨hrecorded.answered, ?_, hconcretes, fun c hc a b written written' ha hb => ?_⟩
  · refine hrecorded.weighted hreads fun f hf => ?_
    exact Abstract.check_eq_ok_iff.1 hcheck f hf f.cat (by simp)
  · obtain ⟨made, -, -, hrecords⟩ := exists_of_mem_forall₂ hconcretes hc
    exact hrecords.shared ha hb

/-- The verbs of two pieces are what was said of them. -/
theorem Grammar.records_particleVerbs :
    ∃ g, particleVerbs.build = .ok g ∧ g.Records particleVerbs := by
  obtain ⟨g, hbuild, -⟩ := build_particleVerbs
  exact ⟨g, hbuild, Grammar.records_of_build hbuild⟩

end Polyglot
