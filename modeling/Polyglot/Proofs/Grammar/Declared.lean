import Polyglot.Proofs.Grammar.Labels

/-!
# What a draft has taken in

A draft is what its declarations say, as far as names go: its categories are those that were
declared, its functions are as their last declarations have them, and nothing went wrong exactly if
productions were only ever added to instances that were there. Its concrete syntaxes are labelled as
their own declarations say.

- `InOrder`: productions are added to instances that were made before.
- `DeclaresCategory`, `DeclaresFunction`, `concreteNames`: what declarations declare; of several
  declarations of a function the last one counts.
- `Draft.Reads`: a draft is what declarations say.
- `WrittenGrammar.reads_draft`: and so it is when all declarations are taken in.
-/

namespace Polyglot

/-! ## Instances in order -/

namespace ConcreteDeclaration

/-- How many instances a declaration makes. -/
def instanceCount : ConcreteDeclaration → Nat
  | .category _ count _ => count
  | .coercion _ => 1
  | _ => 0

/-- The instance that a declaration adds productions to, or whose productions it marks as known. -/
def target? : ConcreteDeclaration → Option InstanceId
  | .apply id _ _ | .coerce id _ | .markKnown id => some id
  | _ => none

end ConcreteDeclaration

/-- An instance is one of the first `n`. -/
def InstanceId.Below (id : InstanceId) (n : Nat) : Prop := ∃ i < n, id = .ofIndex i

/-- Productions are added only to instances that were made before, if `n` were there already. -/
def InOrder (n : Nat) (ds : List ConcreteDeclaration) : Prop :=
  ∀ before d after, ds = before ++ d :: after → ∀ id, d.target? = some id →
    id.Below (n + (before.map ConcreteDeclaration.instanceCount).sum)

theorem inOrder_cons {n : Nat} {d : ConcreteDeclaration} {ds : List ConcreteDeclaration} :
    InOrder n (d :: ds) ↔
      (∀ id, d.target? = some id → id.Below n) ∧ InOrder (n + d.instanceCount) ds := by
  constructor
  · intro h
    refine ⟨h [] d ds rfl, fun before d' after heq id hid => ?_⟩
    have := h (d :: before) d' after (by rw [heq, List.cons_append]) id hid
    rwa [List.map_cons, List.sum_cons, ← Nat.add_assoc] at this
  · rintro ⟨hfirst, hrest⟩ before d' after heq id hid
    cases before with
    | nil =>
      obtain ⟨rfl, rfl⟩ := List.cons.inj heq
      exact hfirst id hid
    | cons first before =>
      obtain ⟨rfl, rfl⟩ := List.cons.inj heq
      rw [List.map_cons, List.sum_cons, ← Nat.add_assoc]
      exact hrest before d' after rfl id hid

namespace ConcreteDraft

/-- Adding productions makes no instance, and goes wrong for one that was not made. -/
theorem addProductions_spec (d : ConcreteDraft) (id : InstanceId) (ps : List Production) :
    (d.addProductions id ps).concrete.name = d.concrete.name ∧
      (d.addProductions id ps).concrete.instances.length = d.concrete.instances.length ∧
      ((d.addProductions id ps).error = none ↔
        d.error = none ∧ id.Below d.concrete.instances.length) := by
  have hundefined : ((d.undefined id).error = none ↔ d.error = none ∧ False) := by
    simp [undefined]
  unfold addProductions
  cases hindex : id.index? with
  | none =>
    have hbelow : ¬ id.Below d.concrete.instances.length := by
      rintro ⟨i, -, rfl⟩
      rw [InstanceId.index?_ofIndex] at hindex
      cases hindex
    refine ⟨rfl, rfl, hundefined.trans (and_congr_right fun _ => ?_)⟩
    exact ⟨False.elim, hbelow⟩
  | some i =>
    obtain rfl := InstanceId.index?_eq_some_iff.1 hindex
    dsimp only
    split
    · rename_i hi
      refine ⟨rfl, List.length_modify .., ?_⟩
      exact ⟨fun h => ⟨h, i, hi, rfl⟩, fun h => h.1⟩
    · rename_i hi
      refine ⟨rfl, rfl, hundefined.trans (and_congr_right fun _ => ⟨False.elim, ?_⟩)⟩
      rintro ⟨j, hj, heq⟩
      have hindex' := congrArg InstanceId.index? heq
      rw [InstanceId.index?_ofIndex, InstanceId.index?_ofIndex, Option.some.injEq] at hindex'
      omega

/-- What a declaration does to the name, to the number of instances, and to the error. -/
theorem declare_spec (d : ConcreteDraft) (declaration : ConcreteDeclaration) :
    (d.declare declaration).2.concrete.name = d.concrete.name ∧
      (d.declare declaration).2.concrete.instances.length =
        d.concrete.instances.length + declaration.instanceCount ∧
      ((d.declare declaration).2.error = none ↔ d.error = none ∧
        ∀ id, declaration.target? = some id → id.Below d.concrete.instances.length) := by
  -- Most declarations have no target, so nothing can go wrong with them.
  have hnone : d.error = none ↔ d.error = none ∧
      ∀ id, (none : Option InstanceId) = some id → id.Below d.concrete.instances.length :=
    ⟨fun h => ⟨h, nofun⟩, fun h => h.1⟩
  have hproductions : ∀ id ps, (d.addProductions id ps).concrete.name = d.concrete.name ∧
      (d.addProductions id ps).concrete.instances.length = d.concrete.instances.length + 0 ∧
      ((d.addProductions id ps).error = none ↔ d.error = none ∧
        ∀ id', some id = some id' → id'.Below d.concrete.instances.length) := by
    intro id ps
    obtain ⟨hname, hlength, herror⟩ := addProductions_spec d id ps
    refine ⟨hname, hlength, herror.trans (and_congr_right fun _ => ?_)⟩
    exact ⟨fun h id' heq => Option.some.inj heq ▸ h, fun h => h id rfl⟩
  cases declaration with
  | flag name value => exact ⟨rfl, rfl, hnone⟩
  | category name count labels =>
    refine ⟨?_, ?_, hnone⟩
    · simp only [declare, addCategory, addToCategory]
      split <;> rfl
    · simp only [declare, addCategory, addToCategory]
      split <;> simp [ConcreteDeclaration.instanceCount]
  | coercion targets =>
    refine ⟨?_, ?_, hnone⟩
    · simp only [declare, addCoercion]
      split <;> rfl
    · simp only [declare, addCoercion]
      split <;> simp [addInstance, ConcreteDeclaration.instanceCount]
  | sequence constituents =>
    obtain ⟨hname, -, hinstances⟩ :=
      addSequence_spec d.concrete (internSequence d.symbols constituents).1
    exact ⟨hname, congrArg List.length hinstances, hnone⟩
  | function name fields => exact ⟨rfl, rfl, hnone⟩
  | functionWith name fields =>
    obtain ⟨hname, -, hinstances⟩ :=
      addSequences_spec d.concrete (internSequences d.symbols fields).1
    exact ⟨hname, congrArg List.length hinstances, hnone⟩
  | apply id fn args => exact hproductions id _
  | coerce id target => exact hproductions id _
  | markKnown id => exact hproductions id _

/-- Nothing goes wrong with declarations exactly if they are in order. -/
theorem declareAll_spec (d : ConcreteDraft) (ds : List ConcreteDeclaration) :
    (d.declareAll ds).2.concrete.name = d.concrete.name ∧
      ((d.declareAll ds).2.error = none ↔
        d.error = none ∧ InOrder d.concrete.instances.length ds) := by
  induction ds generalizing d with
  | nil =>
    refine ⟨rfl, ⟨fun h => ⟨h, fun before d' after heq => ?_⟩, fun h => h.1⟩⟩
    simp at heq
  | cons x ds ih =>
    obtain ⟨hname, hlength, herror⟩ := declare_spec d x
    obtain ⟨hname', herror'⟩ := ih (d.declare x).2
    refine ⟨hname'.trans hname, herror'.trans ?_⟩
    rw [herror, hlength, inOrder_cons, and_assoc]

end ConcreteDraft

/-! ## Declarations of a grammar -/

/-- A category is among what is declared. -/
def DeclaresCategory (ds : List Declaration) (name : String) : Prop :=
  ∃ context, .category name context ∈ ds

/-- A function is declared, and its last declaration says what it takes and what it makes. -/
def DeclaresFunction (ds : List Declaration) (name : String) (args : List String)
    (cat : String) : Prop :=
  ∃ before after, ds = before ++ .function name args cat :: after ∧
    ∀ args' cat', .function name args' cat' ∉ after

/-- The names of the concrete syntaxes that are declared, in order. -/
def concreteNames (ds : List Declaration) : List String :=
  ds.filterMap fun
    | .concrete name _ => some name
    | _ => none

variable {ds : List Declaration} {d : Declaration} {name : String} {args : List String}
  {cat : String}

theorem declaresCategory_concat :
    DeclaresCategory (ds ++ [d]) name ↔
      DeclaresCategory ds name ∨ ∃ context, d = .category name context := by
  simp only [DeclaresCategory, List.mem_append, List.mem_singleton, exists_or, eq_comm]

theorem declaresFunction_concat :
    DeclaresFunction (ds ++ [d]) name args cat ↔ d = .function name args cat ∨
      DeclaresFunction ds name args cat ∧ ∀ args' cat', d ≠ .function name args' cat' := by
  constructor
  · rintro ⟨before, after, heq, hlast⟩
    rcases List.eq_nil_or_concat' after with rfl | ⟨after, d', rfl⟩
    · exact .inl (List.cons.inj (List.append_inj' heq rfl).2).1
    · rw [← List.cons_append, ← List.append_assoc] at heq
      obtain ⟨rfl, hd⟩ := List.append_inj' heq rfl
      obtain ⟨rfl, -⟩ := List.cons.inj hd
      refine .inr ⟨⟨before, after, rfl, fun args' cat' hmem => ?_⟩, fun args' cat' hd => ?_⟩
      · exact hlast args' cat' (List.mem_append_left _ hmem)
      · exact hlast args' cat' (List.mem_append_right _ (List.mem_singleton.2 hd.symm))
  · rintro (rfl | ⟨⟨before, after, rfl, hlast⟩, hd⟩)
    · exact ⟨ds, [], rfl, fun _ _ => List.not_mem_nil⟩
    · refine ⟨before, after ++ [d], by simp, fun args' cat' hmem => ?_⟩
      rcases List.mem_append.1 hmem with hmem | hmem
      · exact hlast args' cat' hmem
      · exact hd args' cat' (List.mem_singleton.1 hmem).symm

/-- A function is one that was declared with such names. -/
structure AbstractFunction.Spelled (symbols : SymbolStore) (f : AbstractFunction) (name : String)
    (args : List String) (cat : String) : Prop where
  name : symbols.find? name = some f.name
  args : symbols.Finds args f.args
  cat : symbols.find? cat = some f.cat

theorem AbstractFunction.Spelled.mono {s s' : SymbolStore} (h : s.Extends s')
    {f : AbstractFunction} (hf : f.Spelled s name args cat) : f.Spelled s' name args cat :=
  ⟨h.find? hf.name, h.finds hf.args, h.find? hf.cat⟩

/-! ## Drafts -/

namespace Draft

/-- The categories are those that were declared. -/
structure ReadsCategories (ds : List Declaration) (symbols : SymbolStore)
    (cats : List AbstractCategory) : Prop where
  declared : ∀ k ∈ cats, ∃ name, symbols.find? name = some k.name ∧ DeclaresCategory ds name
  taken : ∀ name, DeclaresCategory ds name → ∃ k ∈ cats, symbols.find? name = some k.name

/-- The functions are those that were declared, as they were declared last. -/
structure ReadsFunctions (ds : List Declaration) (symbols : SymbolStore)
    (funs : List AbstractFunction) : Prop where
  declared : ∀ f ∈ funs, ∃ name args cat, f.Spelled symbols name args cat ∧
    DeclaresFunction ds name args cat
  taken : ∀ name args cat, DeclaresFunction ds name args cat →
    ∃ f ∈ funs, f.Spelled symbols name args cat

/-- A draft is what declarations say. -/
structure Reads (ds : List Declaration) (d : Draft) : Prop where
  categories : ReadsCategories ds d.symbols d.abs.cats
  functions : ReadsFunctions ds d.symbols d.abs.funs
  /-- A concrete syntax that is not in order is not kept. -/
  concretes : d.error = none → d.symbols.Finds (concreteNames ds) (d.concretes.map (·.name))
  error : d.error = none ↔ ∀ name cs, .concrete name cs ∈ ds → InOrder 0 cs
  labelled : ∀ c ∈ d.concretes, ∃ name cs, .concrete name cs ∈ ds ∧
    d.symbols.find? name = some c.name ∧ c.Labelled d.symbols cs

theorem mem_redeclare {α : Type} {same : α → Bool} {a b : α} {as : List α} :
    b ∈ redeclare same a as ↔ b = a ∨ b ∈ as ∧ ¬ same b := by
  unfold redeclare
  split
  · rename_i hany
    obtain ⟨c, hc, hsame⟩ := List.any_eq_true.1 hany
    rw [List.mem_map]
    constructor
    · rintro ⟨b', hb', rfl⟩
      split
      · exact .inl rfl
      · exact .inr ⟨hb', ‹_›⟩
    · rintro (rfl | ⟨hb, hother⟩)
      · exact ⟨c, hc, if_pos hsame⟩
      · exact ⟨b, hb, if_neg hother⟩
  · rename_i hany
    rw [List.mem_append, List.mem_singleton, or_comm]
    refine or_congr_right (iff_self_and.2 fun hb hsame => hany ?_)
    exact List.any_eq_true.2 ⟨b, hb, hsame⟩

variable {symbols symbols' : SymbolStore}

/-! ### Categories -/

theorem ReadsCategories.keep {cats : List AbstractCategory} (h : ReadsCategories ds symbols cats)
    (hextends : symbols.Extends symbols') (hd : ∀ name context, d ≠ .category name context) :
    ReadsCategories (ds ++ [d]) symbols' cats := by
  refine ⟨fun k hk => ?_, fun name hname => ?_⟩
  · obtain ⟨name, hfind, hdeclared⟩ := h.declared k hk
    exact ⟨name, hextends.find? hfind, declaresCategory_concat.2 (.inl hdeclared)⟩
  · rcases declaresCategory_concat.1 hname with hname | ⟨context, rfl⟩
    · obtain ⟨k, hk, hfind⟩ := h.taken name hname
      exact ⟨k, hk, hextends.find? hfind⟩
    · exact absurd rfl (hd name context)

theorem ReadsCategories.add {cats : List AbstractCategory} (h : ReadsCategories ds symbols cats)
    (hextends : symbols.Extends symbols') {context : List String} {k : AbstractCategory}
    (hk : symbols'.find? name = some k.name) :
    ReadsCategories (ds ++ [.category name context]) symbols'
      (redeclare (·.name = k.name) k cats) := by
  refine ⟨fun k' hk' => ?_, fun name' hname' => ?_⟩
  · rcases mem_redeclare.1 hk' with rfl | ⟨hk', -⟩
    · exact ⟨name, hk, declaresCategory_concat.2 (.inr ⟨context, rfl⟩)⟩
    · obtain ⟨name', hfind, hdeclared⟩ := h.declared k' hk'
      exact ⟨name', hextends.find? hfind, declaresCategory_concat.2 (.inl hdeclared)⟩
  · rcases declaresCategory_concat.1 hname' with hname' | ⟨context', heq⟩
    · obtain ⟨k', hk', hfind⟩ := h.taken name' hname'
      by_cases hsame : k'.name = k.name
      · exact ⟨k, mem_redeclare.2 (.inl rfl), hsame ▸ hextends.find? hfind⟩
      · exact ⟨k', mem_redeclare.2 (.inr ⟨hk', by simpa using hsame⟩), hextends.find? hfind⟩
    · cases heq
      exact ⟨k, mem_redeclare.2 (.inl rfl), hk⟩

/-! ### Functions -/

theorem ReadsFunctions.keep {funs : List AbstractFunction} (h : ReadsFunctions ds symbols funs)
    (hextends : symbols.Extends symbols') (hd : ∀ name args cat, d ≠ .function name args cat) :
    ReadsFunctions (ds ++ [d]) symbols' funs := by
  refine ⟨fun f hf => ?_, fun name args cat hname => ?_⟩
  · obtain ⟨name, args, cat, hspelled, hdeclared⟩ := h.declared f hf
    exact ⟨name, args, cat, hspelled.mono hextends,
      declaresFunction_concat.2 (.inr ⟨hdeclared, hd name⟩)⟩
  · rcases declaresFunction_concat.1 hname with heq | ⟨hname, -⟩
    · exact absurd heq (hd name args cat)
    · obtain ⟨f, hf, hspelled⟩ := h.taken name args cat hname
      exact ⟨f, hf, hspelled.mono hextends⟩

/-- The last declaration takes the place of an earlier one of the same name. -/
theorem ReadsFunctions.add {funs : List AbstractFunction} (h : ReadsFunctions ds symbols funs)
    (hextends : symbols.Extends symbols') {f : AbstractFunction}
    (hf : f.Spelled symbols' name args cat) :
    ReadsFunctions (ds ++ [.function name args cat]) symbols'
      (redeclare (·.name = f.name) f funs) := by
  refine ⟨fun f' hf' => ?_, fun name' args' cat' hname' => ?_⟩
  · rcases mem_redeclare.1 hf' with rfl | ⟨hf', hother⟩
    · exact ⟨name, args, cat, hf, declaresFunction_concat.2 (.inl rfl)⟩
    · obtain ⟨name', args', cat', hspelled, hdeclared⟩ := h.declared f' hf'
      refine ⟨name', args', cat', hspelled.mono hextends,
        declaresFunction_concat.2 (.inr ⟨hdeclared, fun args'' cat'' heq => hother ?_⟩)⟩
      cases heq
      have := (hspelled.mono hextends).name.symm.trans hf.name
      simpa using Option.some.inj this
  · rcases declaresFunction_concat.1 hname' with heq | ⟨hname', hother⟩
    · cases heq
      exact ⟨f, mem_redeclare.2 (.inl rfl), hf⟩
    · obtain ⟨f', hf', hspelled⟩ := h.taken name' args' cat' hname'
      refine ⟨f', mem_redeclare.2 (.inr ⟨hf', fun hsame => ?_⟩), hspelled.mono hextends⟩
      have hsame' : f'.name = f.name := by simpa using hsame
      have hname : name' = name :=
        SymbolStore.eq_of_find? (hsame' ▸ (hspelled.mono hextends).name) hf.name
      exact hother args cat (hname ▸ rfl)

/-! ### Concrete syntaxes -/

theorem concreteNames_concat : concreteNames (ds ++ [d]) = concreteNames ds ++ concreteNames [d] :=
  List.filterMap_append

theorem Reads.labelled_mono {draft : Draft} (h : Reads ds draft) {s : SymbolStore}
    (hextends : draft.symbols.Extends s) :
    ∀ c ∈ draft.concretes, ∃ name cs, .concrete name cs ∈ ds ++ [d] ∧
      s.find? name = some c.name ∧ c.Labelled s cs := by
  intro c hc
  obtain ⟨name, cs, hmem, hname, hlabelled⟩ := h.labelled c hc
  exact ⟨name, cs, List.mem_append_left _ hmem, hextends.find? hname, hlabelled.mono hextends⟩

/-- What is not a concrete syntax changes neither those there are nor the error. -/
theorem Reads.keep {draft draft' : Draft} (h : Reads ds draft)
    (hextends : draft.symbols.Extends draft'.symbols)
    (hd : ∀ name cs, d ≠ .concrete name cs) (hconcretes : draft'.concretes = draft.concretes)
    (herror : draft'.error = draft.error)
    (hcats : ReadsCategories (ds ++ [d]) draft'.symbols draft'.abs.cats)
    (hfuns : ReadsFunctions (ds ++ [d]) draft'.symbols draft'.abs.funs) :
    Reads (ds ++ [d]) draft' := by
  have hnames : concreteNames (ds ++ [d]) = concreteNames ds := by
    rw [concreteNames_concat]
    cases d with
    | concrete name cs => exact absurd rfl (hd name cs)
    | _ => exact List.append_nil _
  refine ⟨hcats, hfuns, fun hnone => ?_, ?_, ?_⟩
  · rw [hnames, hconcretes]
    exact hextends.finds (h.concretes (herror ▸ hnone))
  · rw [herror, h.error]
    refine forall₂_congr fun name cs => ?_
    rw [List.mem_append, List.mem_singleton, or_iff_left (hd name cs).symm]
  · rw [hconcretes]
    exact h.labelled_mono hextends

theorem forall_inOrder_concat {name : String} {cs : List ConcreteDeclaration} :
    (∀ name' cs', .concrete name' cs' ∈ ds ++ [.concrete name cs] → InOrder 0 cs') ↔
      (∀ name' cs', .concrete name' cs' ∈ ds → InOrder 0 cs') ∧ InOrder 0 cs := by
  simp only [List.mem_append, List.mem_singleton, Declaration.concrete.injEq]
  constructor
  · exact fun hall => ⟨fun name' cs' hmem => hall name' cs' (.inl hmem),
      hall name cs (.inr ⟨rfl, rfl⟩)⟩
  · rintro ⟨hall, hcs⟩ name' cs' (hmem | ⟨-, rfl⟩)
    · exact hall name' cs' hmem
    · exact hcs

/-- A concrete syntax keeps its name while it is declared. -/
theorem find?_opened (draft : Draft) (name : String) (cs : List ConcreteDeclaration) :
    ((draft.opened name).declareAll cs).2.symbols.find? name =
      some ((draft.opened name).declareAll cs).2.concrete.name := by
  have hrun := (ConcreteDraft.known_declareAll (d := draft.opened name) nofun cs).1
  rw [((draft.opened name).declareAll_spec cs).1]
  exact hrun.find? (draft.symbols.find?_intern name)

/-- A concrete syntax is there with its name and its labels, unless its declarations are not in
order. -/
theorem Reads.concrete {draft : Draft} (h : Reads ds draft) (name : String)
    (cs : List ConcreteDeclaration) :
    Reads (ds ++ [.concrete name cs]) (draft.declare (.concrete name cs)).2 := by
  have hextends := (draft.known_opened name cs).1
  have hfind := draft.find?_opened name cs
  have hcerror := ((draft.opened name).declareAll_spec cs).2
  have hempty : (draft.opened name).concrete.Labelled (draft.opened name).symbols [] :=
    ⟨nofun, nofun⟩
  have hlabelled := ConcreteDraft.labelled_declareAll hempty cs
  have hcats := h.categories.keep (d := .concrete name cs) hextends nofun
  have hfuns := h.functions.keep (d := .concrete name cs) hextends nofun
  have horder : (∀ name' cs', .concrete name' cs' ∈ ds ++ [.concrete name cs] → InOrder 0 cs') ↔
      draft.error = none ∧ ((draft.opened name).declareAll cs).2.error = none := by
    rw [forall_inOrder_concat, h.error, hcerror]
    exact and_congr_right fun _ => (and_iff_right rfl).symm
  rw [Draft.declare_concrete]
  dsimp only
  split
  · rename_i hnone
    refine ⟨hcats, hfuns, fun herror => ?_, ?_, fun c hc => ?_⟩
    · have hold := hextends.finds (h.concretes herror)
      rw [concreteNames_concat, List.map_append, SymbolStore.Finds, List.map_append, hold,
        List.map_append]
      exact congrArg (fun o => _ ++ [o]) hfind
    · rw [horder]
      exact (and_iff_left hnone).symm
    · rcases List.mem_append.1 hc with hc | hc
      · exact h.labelled_mono hextends c hc
      · rw [List.mem_singleton.1 hc]
        exact ⟨name, cs, by simp, hfind, hlabelled⟩
  · rename_i e herror
    refine ⟨hcats, hfuns, fun hnone => ?_, ?_, h.labelled_mono hextends⟩
    · cases hold : draft.error <;> simp [hold] at hnone
    · rw [horder, show ((draft.opened name).declareAll cs).2.error = some e from herror]
      cases draft.error <;> simp

/-- A declaration is taken in as it stands. -/
theorem Reads.declare {draft : Draft} (h : Reads ds draft) (d : Declaration) :
    Reads (ds ++ [d]) (draft.declare d).2 := by
  cases d with
  | flag name value =>
    exact h.keep (.refl _) nofun rfl rfl (h.categories.keep (.refl _) nofun)
      (h.functions.keep (.refl _) nofun)
  | category name context =>
    have hname := draft.symbols.extends_intern name
    have hcontext := (SymbolStore.internAll_spec (draft.symbols.intern name).2 context).1
    have hextends := hname.trans hcontext
    let k : AbstractCategory :=
      { name := (draft.symbols.intern name).1
        context := ((draft.symbols.intern name).2.internAll context).1 }
    refine h.keep hextends nofun rfl rfl ?_ (h.functions.keep hextends nofun)
    exact h.categories.add (k := k) hextends (hcontext.find? (draft.symbols.find?_intern name))
  | function name args cat =>
    have hname := draft.symbols.extends_intern name
    have hargs := (SymbolStore.internAll_spec (draft.symbols.intern name).2 args).1
    have hcat := ((draft.symbols.intern name).2.internAll args).2.extends_intern cat
    have hextends := (hname.trans hargs).trans hcat
    let f : AbstractFunction :=
      { name := (draft.symbols.intern name).1
        args := ((draft.symbols.intern name).2.internAll args).1
        cat := (((draft.symbols.intern name).2.internAll args).2.intern cat).1 }
    refine h.keep hextends nofun rfl rfl (h.categories.keep hextends nofun) ?_
    refine h.functions.add (f := f) hextends ⟨?_, ?_, ?_⟩
    · exact (hargs.trans hcat).find? (draft.symbols.find?_intern name)
    · exact hcat.finds (SymbolStore.finds_internAll _ args)
    · exact SymbolStore.find?_intern _ cat
  | probability fn p =>
    have hextends := draft.symbols.extends_intern fn
    exact h.keep hextends nofun rfl rfl (h.categories.keep hextends nofun)
      (h.functions.keep hextends nofun)
  | concrete name cs => exact h.concrete name cs

theorem Reads.declareAll {draft : Draft} (h : Reads ds draft) (ds' : List Declaration) :
    Reads (ds ++ ds') (draft.declareAll ds').2 := by
  induction ds' generalizing ds draft with
  | nil => rwa [List.append_nil]
  | cons d ds' ih =>
    have := ih (h.declare d)
    rwa [List.append_assoc, List.singleton_append] at this

theorem reads_start (name : String) : Reads [] (start name) where
  categories := ⟨nofun, nofun⟩
  functions := ⟨nofun, fun _ _ _ ⟨before, after, heq, _⟩ => by simp at heq⟩
  concretes := fun _ => rfl
  error := ⟨fun _ => nofun, fun _ => rfl⟩
  labelled := nofun

end Draft

/-- The draft of a grammar is what its declarations say. -/
theorem WrittenGrammar.reads_draft (w : WrittenGrammar) : Draft.Reads w.declarations w.draft.2 :=
  (Draft.reads_start w.name).declareAll w.declarations

end Polyglot
