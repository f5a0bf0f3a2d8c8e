import Polyglot.Proofs.Grammar.Phrase

/-!
# The words of a grammar are interned

Every word of a concrete syntax was interned when it was declared, and interning more changes no
handle. So the words of a phrase have names, and are found again by these.

- `SymbolStore.Finds`: tokens stand for words.
- `SymbolStore.Extends`: one store knows all that another knows.
- `Concrete.Known`: the words of a concrete syntax have names, as they do in every grammar that was
  built (`Concrete.known_of_build`).
- `Concrete.Spells.known`: so all words of a phrase have.
-/

namespace Polyglot

namespace SymbolStore

variable {s s' s'' : SymbolStore} {sym : Sym}

/-! ## Tokens and words -/

/-- Tokens are what words are called. -/
def Finds (s : SymbolStore) (tokens : List String) (ws : List Sym) : Prop :=
  tokens.map s.find? = ws.map some

theorem Finds.unique {tokens : List String} {ws ws' : List Sym} (h : s.Finds tokens ws)
    (h' : s.Finds tokens ws') : ws = ws' :=
  (List.map_inj_right fun _ _ => Option.some.inj).1 (h.symm.trans h')

theorem Finds.begins {tokens : List String} {ws : List Sym} (h : s.Finds tokens ws) :
    tokens.map s.find? <+: ws.map some :=
  ⟨[], (List.append_nil _).trans h⟩

/-- Tokens are the names of the words that they were found to be. -/
theorem Finds.eq_names {tokens : List String} {ws : List Sym} (h : s.Finds tokens ws) :
    ws.map s.name = tokens := by
  refine List.ext_getElem (by simpa using (congrArg List.length h).symm) fun i hi hi' => ?_
  have hi₀ : i < ws.length := by simpa using hi
  have hfind : s.find? tokens[i] = some ws[i] := by
    have := congrArg (·[i]?) h
    simpa [hi', hi₀] using this
  rw [List.getElem_map, name, find?_eq_some_iff.1 hfind, Option.getD_some]

/-- A handle has a name. -/
def Knows (s : SymbolStore) (sym : Sym) : Prop := ∃ name, s.resolve? sym = some name

/-- Words that have names are found by these. -/
theorem finds_names {ws : List Sym} (h : ∀ sym ∈ ws, s.Knows sym) :
    s.Finds (ws.map s.name) ws := by
  rw [Finds, List.map_map]
  refine List.map_congr_left fun sym hsym => ?_
  obtain ⟨name, hname⟩ := h sym hsym
  rw [Function.comp_apply, SymbolStore.name, hname, Option.getD_some, find?_eq_some_iff, hname]

/-! ## More names -/

/-- What has a name in one store has the same in another. -/
def Extends (s s' : SymbolStore) : Prop :=
  ∀ sym name, s.resolve? sym = some name → s'.resolve? sym = some name

theorem Extends.refl (s : SymbolStore) : s.Extends s := fun _ _ h => h

theorem Extends.trans (h : s.Extends s') (h' : s'.Extends s'') : s.Extends s'' :=
  fun sym name hname => h' sym name (h sym name hname)

theorem Extends.knows (h : s.Extends s') (hsym : s.Knows sym) : s'.Knows sym :=
  hsym.imp fun name => h sym name

theorem extends_intern (s : SymbolStore) (name : String) : s.Extends (s.intern name).2 :=
  fun _ _ => resolve?_intern_of_some

/-- Interning several names keeps what was known, and they are known afterwards. -/
theorem internAll_spec (s : SymbolStore) (names : List String) :
    s.Extends (s.internAll names).2 ∧
      ∀ sym ∈ (s.internAll names).1, (s.internAll names).2.Knows sym := by
  induction names generalizing s with
  | nil => exact ⟨.refl s, nofun⟩
  | cons name names ih =>
    obtain ⟨hextends, hknows⟩ := ih (s.intern name).2
    refine ⟨(s.extends_intern name).trans hextends, fun sym hsym => ?_⟩
    rcases List.mem_cons.1 hsym with rfl | hsym
    · exact hextends.knows ⟨name, resolve?_intern s name⟩
    · exact hknows sym hsym

/-! ## Names that stay found -/

variable {name other : String} {tokens : List String} {ws : List Sym}

theorem find?_intern (s : SymbolStore) (name : String) :
    (s.intern name).2.find? name = some (s.intern name).1 :=
  find?_eq_some_iff.2 (resolve?_intern s name)

theorem Extends.find? (h : s.Extends s') (hname : s.find? name = some sym) :
    s'.find? name = some sym :=
  find?_eq_some_iff.2 (h sym name (find?_eq_some_iff.1 hname))

/-- Different names have different handles. -/
theorem eq_of_find? (h : s.find? name = some sym) (h' : s.find? other = some sym) :
    name = other := by
  have := (find?_eq_some_iff.1 h).symm.trans (find?_eq_some_iff.1 h')
  exact Option.some.inj this

theorem Extends.finds (h : s.Extends s') (hfinds : s.Finds tokens ws) : s'.Finds tokens ws := by
  have hforall : List.Forall₂ (fun token w => s.find? token = some w) tokens ws := by
    rwa [Finds, ← List.forall₂_eq_eq_eq, List.forall₂_map_left_iff,
      List.forall₂_map_right_iff] at hfinds
  rw [Finds, ← List.forall₂_eq_eq_eq, List.forall₂_map_left_iff, List.forall₂_map_right_iff]
  exact hforall.imp fun _ _ => h.find?

theorem finds_internAll (s : SymbolStore) (names : List String) :
    (s.internAll names).2.Finds names (s.internAll names).1 := by
  induction names generalizing s with
  | nil => rfl
  | cons name names ih =>
    have hfind := (internAll_spec (s.intern name).2 names).1.find? (find?_intern s name)
    exact congrArg₂ List.cons hfind (ih (s.intern name).2)

/-- What was found among known names has them for names. -/
theorem Finds.exists_find? (h : s.Finds tokens ws)
    (hsym : sym ∈ ws) : ∃ token ∈ tokens, s.find? token = some sym := by
  have hmem : some sym ∈ tokens.map s.find? := by
    rw [h]
    exact List.mem_map_of_mem hsym
  exact List.mem_map.1 hmem

theorem Finds.exists_mem (h : s.Finds tokens ws)
    (hname : name ∈ tokens) : ∃ sym ∈ ws, s.find? name = some sym := by
  have hmem : s.find? name ∈ ws.map some := by
    rw [← h]
    exact List.mem_map_of_mem hname
  obtain ⟨sym, hsym, heq⟩ := List.mem_map.1 hmem
  exact ⟨sym, hsym, heq.symm⟩

theorem Finds.nodup_iff (h : s.Finds tokens ws) : tokens.Nodup ↔ ws.Nodup := by
  constructor
  · intro htokens
    rw [← h.eq_names] at htokens
    exact htokens.of_map
  · intro hws
    have hsome : (ws.map some).Nodup := hws.map (Option.some_injective Sym)
    rw [← h] at hsome
    exact hsome.of_map

end SymbolStore

/-! ## The words of a syntax -/

/-- All words of a constituent have names. -/
def Constituent.Known (symbols : SymbolStore) (x : Constituent) : Prop :=
  ∀ ts ∈ x.forms, ∀ sym ∈ ts, symbols.Knows sym

/-- All words of a concrete syntax have names. -/
def Concrete.Known (symbols : SymbolStore) (c : Concrete) : Prop :=
  ∀ s ∈ c.sequences, ∀ x ∈ s, Constituent.Known symbols x

variable {symbols symbols' : SymbolStore} {c : Concrete}

theorem Constituent.Known.mono (h : symbols.Extends symbols') {x : Constituent}
    (hx : x.Known symbols) : x.Known symbols' :=
  fun ts hts sym hsym => h.knows (hx ts hts sym hsym)

theorem Concrete.Known.mono (h : symbols.Extends symbols') (hc : c.Known symbols) :
    c.Known symbols' :=
  fun s hs x hx => (hc s hs x hx).mono h

/-- So have those of the sequences of a production. -/
theorem Concrete.Known.of_body? (hc : c.Known symbols) {p : Production} {field : Nat}
    {body : Sequence} (h : c.body? p field = some body) : ∀ x ∈ body, x.Known symbols := by
  cases p with
  | apply fn args => exact hc body (Concrete.mem_sequences_of_sequenceOf? h)
  | coerce target =>
    cases h
    intro x hx
    rw [List.mem_singleton.1 hx]
    exact nofun

/-- The words of a phrase have names if those of the syntax have. -/
theorem Concrete.Spells.known (hc : c.Known symbols) {pick : Variants → List (List Sym)}
    (hpick : ∀ v, pick v ⊆ v.forms) {parts : List Phrase} {s : List Constituent} {ws : List Sym}
    (h : c.Spells pick parts s ws) (hs : ∀ x ∈ s, Constituent.Known symbols x) :
    ∀ sym ∈ ws, symbols.Knows sym := by
  induction h with
  | nil => exact nofun
  | @words parts x s ts ws hform _ ih =>
    intro sym hsym
    rcases List.mem_append.1 hsym with hsym | hsym
    · exact hs x List.mem_cons_self ts (x.formsBy_subset hpick hform) sym hsym
    · exact ih (fun x hx => hs x (List.mem_cons_of_mem _ hx)) sym hsym
  | @sub parts ps arg field s body p ts ws _ hbody _ _ ihread ih =>
    intro sym hsym
    rcases List.mem_append.1 hsym with hsym | hsym
    · exact ihread (hc.of_body? hbody) sym hsym
    · exact ih (fun x hx => hs x (List.mem_cons_of_mem _ hx)) sym hsym

/-! ## Declarations -/

namespace ConcreteDraft

/-- Interning the words of alternatives makes them known. -/
theorem internAlternatives_spec (symbols : SymbolStore)
    (alternatives : List (List String × List String)) :
    symbols.Extends (internConstituent.internAlternatives symbols alternatives).2 ∧
      ∀ a ∈ (internConstituent.internAlternatives symbols alternatives).1, ∀ sym ∈ a.tokens,
        (internConstituent.internAlternatives symbols alternatives).2.Knows sym := by
  induction alternatives generalizing symbols with
  | nil => exact ⟨.refl symbols, nofun⟩
  | cons alternative rest ih =>
    obtain ⟨words, triggers⟩ := alternative
    obtain ⟨hextends, hknows⟩ := symbols.internAll_spec words
    obtain ⟨hextends', hknows'⟩ := ih (symbols.internAll words).2
    refine ⟨hextends.trans hextends', fun a ha sym hsym => ?_⟩
    rcases List.mem_cons.1 ha with rfl | ha
    · exact hextends'.knows (hknows sym hsym)
    · exact hknows' a ha sym hsym

/-- Interning the words of a constituent makes them known. -/
theorem internConstituent_spec (symbols : SymbolStore) (x : WrittenConstituent) :
    symbols.Extends (internConstituent symbols x).2 ∧
      (internConstituent symbols x).1.Known (internConstituent symbols x).2 := by
  cases x with
  | sub arg field => exact ⟨.refl symbols, nofun⟩
  | lit arg field => exact ⟨.refl symbols, nofun⟩
  | var arg index => exact ⟨.refl symbols, nofun⟩
  | tokens words =>
    obtain ⟨hextends, hknows⟩ := symbols.internAll_spec words
    refine ⟨hextends, fun ts hts => ?_⟩
    rw [List.mem_singleton.1 hts]
    exact hknows
  | variants base alternatives =>
    obtain ⟨hextends, hknows⟩ := symbols.internAll_spec base
    obtain ⟨hextends', hknows'⟩ := internAlternatives_spec (symbols.internAll base).2 alternatives
    refine ⟨hextends.trans hextends', fun ts hts sym hsym => ?_⟩
    rcases List.mem_cons.1 hts with rfl | hts
    · exact hextends'.knows (hknows sym hsym)
    · obtain ⟨a, ha, rfl⟩ := List.mem_map.1 hts
      exact hknows' a ha sym hsym

/-- The same for a sequence. -/
theorem internSequence_spec (symbols : SymbolStore) (xs : List WrittenConstituent) :
    symbols.Extends (internSequence symbols xs).2 ∧
      ∀ x ∈ (internSequence symbols xs).1, x.Known (internSequence symbols xs).2 := by
  induction xs generalizing symbols with
  | nil => exact ⟨.refl symbols, nofun⟩
  | cons x xs ih =>
    obtain ⟨hextends, hknown⟩ := internConstituent_spec symbols x
    obtain ⟨hextends', hknown'⟩ := ih (internConstituent symbols x).2
    refine ⟨hextends.trans hextends', fun y hy => ?_⟩
    rcases List.mem_cons.1 hy with rfl | hy
    · exact hknown.mono hextends'
    · exact hknown' y hy

/-- The same for several sequences. -/
theorem internSequences_spec (symbols : SymbolStore) (ss : List (List WrittenConstituent)) :
    symbols.Extends (internSequences symbols ss).2 ∧
      ∀ s ∈ (internSequences symbols ss).1, ∀ x ∈ s, x.Known (internSequences symbols ss).2 := by
  induction ss generalizing symbols with
  | nil => exact ⟨.refl symbols, nofun⟩
  | cons s ss ih =>
    obtain ⟨hextends, hknown⟩ := internSequence_spec symbols s
    obtain ⟨hextends', hknown'⟩ := ih (internSequence symbols s).2
    refine ⟨hextends.trans hextends', fun s' hs' => ?_⟩
    rcases List.mem_cons.1 hs' with rfl | hs'
    · exact fun x hx => (hknown x hx).mono hextends'
    · exact hknown' s' hs'

theorem known_addSequence (hc : c.Known symbols) {s : Sequence}
    (hs : ∀ x ∈ s, x.Known symbols) : (addSequence c s).2.Known symbols := by
  rw [addSequence]
  split
  · exact hc
  · intro s' hs'
    rcases List.mem_append.1 hs' with hs' | hs'
    · exact hc s' hs'
    · rw [List.mem_singleton.1 hs']
      exact hs

theorem known_addSequences {ss : List Sequence} (hc : c.Known symbols)
    (hss : ∀ s ∈ ss, ∀ x ∈ s, x.Known symbols) : (addSequences c ss).2.Known symbols := by
  induction ss generalizing c with
  | nil => exact hc
  | cons s ss ih =>
    exact ih (known_addSequence hc (hss s List.mem_cons_self))
      fun s' hs' => hss s' (List.mem_cons_of_mem _ hs')

/-- A declaration that leaves the sequences alone keeps their words known. -/
theorem known_of_sequences_eq {c' : Concrete} (hc : c.Known symbols)
    (h : c'.sequences = c.sequences) : c'.Known symbols := by
  rw [Concrete.Known, h]
  exact hc

theorem sequences_addProductions (d : ConcreteDraft) (id : InstanceId) (ps : List Production) :
    (d.addProductions id ps).concrete.sequences = d.concrete.sequences ∧
      (d.addProductions id ps).symbols = d.symbols := by
  unfold addProductions
  split
  · split <;> exact ⟨rfl, rfl⟩
  · exact ⟨rfl, rfl⟩

/-- Every declaration keeps what is known and makes its words known. -/
theorem known_declare {d : ConcreteDraft} (hd : d.concrete.Known d.symbols)
    (declaration : ConcreteDeclaration) :
    d.symbols.Extends (d.declare declaration).2.symbols ∧
      (d.declare declaration).2.concrete.Known (d.declare declaration).2.symbols := by
  -- Productions have no words, so the declarations of them are alike.
  have hproductions : ∀ id ps, d.symbols.Extends (d.addProductions id ps).symbols ∧
      (d.addProductions id ps).concrete.Known (d.addProductions id ps).symbols := by
    intro id ps
    obtain ⟨hsequences, hsymbols⟩ := sequences_addProductions d id ps
    rw [hsymbols]
    exact ⟨.refl _, known_of_sequences_eq hd hsequences⟩
  cases declaration with
  | flag name value => exact ⟨.refl _, known_of_sequences_eq hd rfl⟩
  | category name count labels =>
    refine ⟨d.symbols.extends_intern name,
      known_of_sequences_eq (hd.mono (d.symbols.extends_intern name)) ?_⟩
    simp only [declare, addCategory, addToCategory]
    split <;> rfl
  | coercion targets =>
    refine ⟨.refl _, known_of_sequences_eq hd ?_⟩
    simp only [declare, addCoercion]
    split <;> rfl
  | sequence constituents =>
    obtain ⟨hextends, hknown⟩ := internSequence_spec d.symbols constituents
    exact ⟨hextends, known_addSequence (hd.mono hextends) hknown⟩
  | function name fields =>
    exact ⟨d.symbols.extends_intern name,
      known_of_sequences_eq (hd.mono (d.symbols.extends_intern name)) rfl⟩
  | functionWith name fields =>
    obtain ⟨hextends, hknown⟩ := internSequences_spec d.symbols fields
    have hname := (internSequences d.symbols fields).2.extends_intern name
    refine ⟨hextends.trans hname, known_of_sequences_eq ?_ rfl⟩
    exact (known_addSequences (hd.mono hextends) hknown).mono hname
  | apply id fn args => exact hproductions id _
  | coerce id target => exact hproductions id _
  | markKnown id => exact hproductions id _

theorem known_declareAll {d : ConcreteDraft} (hd : d.concrete.Known d.symbols)
    (declarations : List ConcreteDeclaration) :
    d.symbols.Extends (d.declareAll declarations).2.symbols ∧
      (d.declareAll declarations).2.concrete.Known (d.declareAll declarations).2.symbols := by
  induction declarations generalizing d with
  | nil => exact ⟨.refl _, hd⟩
  | cons declaration declarations ih =>
    obtain ⟨hextends, hknown⟩ := known_declare hd declaration
    obtain ⟨hextends', hknown'⟩ := ih hknown
    exact ⟨hextends.trans hextends', hknown'⟩

end ConcreteDraft

namespace Draft

/-- A concrete syntax that is about to be declared. -/
def opened (d : Draft) (name : String) : ConcreteDraft where
  symbols := (d.symbols.intern name).2
  concrete := { name := (d.symbols.intern name).1 }

theorem declare_concrete (d : Draft) (name : String) (declarations : List ConcreteDeclaration) :
    d.declare (.concrete name declarations) =
      let (made, c) := (d.opened name).declareAll declarations
      match c.error with
      | none => (made, { d with symbols := c.symbols, concretes := d.concretes ++ [c.concrete] })
      | some e => (made, { d with symbols := c.symbols, error := d.error.or (some e) }) := rfl

/-- While a concrete syntax is declared no name is forgotten, and its words get names. -/
theorem known_opened (d : Draft) (name : String) (declarations : List ConcreteDeclaration) :
    d.symbols.Extends ((d.opened name).declareAll declarations).2.symbols ∧
      ((d.opened name).declareAll declarations).2.concrete.Known
        ((d.opened name).declareAll declarations).2.symbols := by
  obtain ⟨hextends, hknown⟩ :=
    ConcreteDraft.known_declareAll (d := d.opened name) nofun declarations
  exact ⟨(d.symbols.extends_intern name).trans hextends, hknown⟩

/-- Every declaration of a grammar keeps the words of its syntaxes known. -/
theorem known_declare {d : Draft} (hd : ∀ c ∈ d.concretes, c.Known d.symbols)
    (declaration : Declaration) :
    ∀ c ∈ (d.declare declaration).2.concretes, c.Known (d.declare declaration).2.symbols := by
  cases declaration with
  | flag name value => exact hd
  | category name context =>
    refine fun c hc => (hd c hc).mono ?_
    exact (d.symbols.extends_intern name).trans (SymbolStore.internAll_spec _ context).1
  | function name args cat =>
    refine fun c hc => (hd c hc).mono ?_
    exact ((d.symbols.extends_intern name).trans (SymbolStore.internAll_spec _ args).1).trans
      (SymbolStore.extends_intern _ cat)
  | probability fn p => exact fun c hc => (hd c hc).mono (d.symbols.extends_intern fn)
  | concrete name declarations =>
    obtain ⟨hextends, hknown⟩ := d.known_opened name declarations
    -- The syntaxes before this one keep their words, whether or not it is added to them.
    have hold := fun c hc => (hd c hc).mono hextends
    rw [declare_concrete]
    dsimp only
    split
    · intro c hc
      rcases List.mem_append.1 hc with hc | hc
      · exact hold c hc
      · rw [List.mem_singleton.1 hc]
        exact hknown
    · exact hold

theorem known_declareAll {d : Draft} (hd : ∀ c ∈ d.concretes, c.Known d.symbols)
    (declarations : List Declaration) :
    ∀ c ∈ (d.declareAll declarations).2.concretes,
      c.Known (d.declareAll declarations).2.symbols := by
  induction declarations generalizing d with
  | nil => exact hd
  | cons declaration declarations ih => exact ih (known_declare hd declaration)

end Draft

/-- The words of the concrete syntaxes of a grammar that was built have names. -/
theorem Concrete.known_of_build {w : WrittenGrammar} {g : Grammar} (h : w.build = .ok g)
    (hc : c ∈ g.concretes) : c.Known w.draft.2.symbols := by
  obtain ⟨-, -, -, rfl⟩ := Draft.finish_eq_ok_iff.1 h
  exact Draft.known_declareAll (d := Draft.start w.name) nofun w.declarations c hc

end Polyglot
