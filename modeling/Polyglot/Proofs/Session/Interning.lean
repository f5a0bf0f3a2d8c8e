import Polyglot.Proofs.Renditions
import Polyglot.Proofs.Session.Handles
import Polyglot.Proofs.Session.Workspace

/-!
# Interning is unobservable

Names may be interned at any time, whether they mean anything to the grammar or not. A program sees
nothing of that: whatever it does afterwards comes to the same. For what is looked up by name is
found among the names of the grammar or not at all, and the handles of other names, which do depend
on what was interned before, occur in stored expressions only, where they count for their names.

- `Workspace.Within`: all that a program has got is about languages of its grammar.
- `Workspace.Mirrors`: workspaces that differ in such handles only; `Workspace.Agree`: outcomes that
  do, with the same reply.
- `Workspace.Mirrors.perform`: a command has outcomes that agree.
- `Workspace.interning_unobservable`: all replies are what they are without the interning.
-/

namespace Polyglot

/-! ## Sessions -/

namespace Session

variable {limit : Nat} {base : SymbolStore} {w : WrittenGrammar} {g : Grammar} {x : Session}

/-- More expressions leave a session about languages of a grammar. -/
theorem Within.store (h : x.Within limit base g) {exprs : ExprStore}
    (hexprs : x.exprs.Extends exprs) : ({ x with exprs } : Session).Within limit base g := by
  have hgrows : Grows x { x with exprs } := ⟨.refl _, hexprs, fun _ _ hn => hn⟩
  have hintact : ({ x with exprs } : Session).Intact limit base :=
    h.intact.grow hgrows (fun _ _ _ hn => .inl hn) (fun _ _ _ hn => .inl hn)
      fun _ _ _ _ hn => .inl hn
  exact ⟨hintact, h.states, h.readings, h.concretizations⟩

theorem Within.count (h : x.Within limit base g) (counters : Counters) :
    ({ x with counters } : Session).Within limit base g :=
  ⟨(h.intact.count counters).1, h.states, h.readings, h.concretizations⟩

/-- What is answered as a derivation is one. -/
theorem Within.expresses_of_ask (h : x.Within limit base g) {q : Request} {d : Derivation}
    (hd : (x.ask limit base q).1 = .derivation (some d)) :
    ∃ c e, d.Expresses g.abs c e := by
  cases q with
  | nextDerivation n =>
    rw [Session.ask] at hd
    split at hd
    · cases hd
    · rename_i l e r hn
      obtain ⟨c, -, rfl⟩ := h.concretizations n l e r hn
      split at hd
      · cases hd
      · rename_i d? r' counters hnext
        obtain rfl : d? = some d := by simpa using hd
        exact ⟨c, e, Concretizations.expresses_of_next? hnext⟩
  | store node => cases hd
  | parse c cat field =>
    rw [Session.ask] at hd
    split at hd <;> cases hd
  | results n =>
    rw [Session.ask] at hd
    split at hd <;> cases hd
  | concretize l id =>
    rw [Session.ask] at hd
    split at hd <;> cases hd
  | feed n token =>
    rw [Session.ask] at hd
    split at hd
    · cases hd
    · split at hd <;> cases hd
  | nextResult n =>
    rw [Session.ask] at hd
    split at hd
    · cases hd
    · split at hd <;> cases hd

end Session

namespace Workspace

variable {limit : Nat} {base : SymbolStore} {w : WrittenGrammar} {g : Grammar} {u v : Workspace}

/-- What a program has got is about languages of a grammar, whose names are known. -/
structure Within (limit : Nat) (base : SymbolStore) (g : Grammar) (v : Workspace) : Prop where
  symbols : base.Extends v.symbols
  session : v.session.Within limit base g
  parsers : ∀ c ∈ v.parsers, c ∈ g.concretes
  linearizers : ∀ l ∈ v.linearizers, ∃ c ∈ g.concretes, l = .ofConcrete g c
  derivations : ∀ d ∈ v.derivations, ∃ c e, d.Expresses g.abs c e

theorem within_start (limit : Nat) (base : SymbolStore) (g : Grammar) :
    Within limit base g { symbols := base } where
  symbols := .refl base
  session := ⟨Session.intact_start limit base {} {}, by simp, by simp, by simp⟩
  parsers := by simp
  linearizers := by simp
  derivations := by simp

theorem Within.intern (h : v.Within limit base g) {symbols : SymbolStore}
    (hsymbols : v.symbols.Extends symbols) : Within limit base g { v with symbols } :=
  ⟨h.symbols.trans hsymbols, h.session, h.parsers, h.linearizers, h.derivations⟩

section Within

variable (h : v.Within limit base g) (hbuild : w.build = .ok g) (hg : g.Named base)
include h hbuild hg

/-- Whatever else was interned, a request comes to the same. -/
theorem Within.request_eq {q : Request} (hq : q.Within g) :
    v.request limit q = (.answer (v.session.ask limit base q).1,
      { v with session := (v.session.ask limit base q).2 }.keep
        (v.session.ask limit base q).1) := by
  rw [Workspace.request, h.session.ask_eq hbuild hg h.symbols hq]

theorem Within.request {q : Request} (hq : q.Within g) :
    (v.request limit q).2.Within limit base g := by
  rw [h.request_eq hbuild hg hq]
  have hafter : Within limit base g { v with session := (v.session.ask limit base q).2 } :=
    ⟨h.symbols, h.session.ask hbuild hq, h.parsers, h.linearizers, h.derivations⟩
  cases hanswer : (v.session.ask limit base q).1 with
  | derivation d? =>
    cases d? with
    | none => exact hafter
    | some d =>
      refine ⟨h.symbols, hafter.session, h.parsers, h.linearizers, fun d' hd' => ?_⟩
      rcases Array.mem_push.1 hd' with hd' | rfl
      · exact h.derivations d' hd'
      · exact h.session.expresses_of_ask hanswer
  | unknown | refusal | halt | state | rejected | expr | enumeration | result | broken =>
    exact hafter

/-- **Every command leaves a workspace about languages of the grammar.** -/
theorem Within.perform (q : Command) : (v.perform limit g q).2.Within limit base g := by
  cases q with
  | parser language =>
    rw [Workspace.perform]
    split
    · exact h
    · rename_i c hc
      refine ⟨h.symbols, h.session, fun c' hc' => ?_, h.linearizers, h.derivations⟩
      rcases Array.mem_push.1 hc' with hc' | rfl
      · exact h.parsers c' hc'
      · exact Grammar.mem_of_resolveConcrete? hc
  | linearizer language =>
    rw [Workspace.perform]
    split
    · exact h
    · rename_i c hc
      refine ⟨h.symbols, h.session, h.parsers, fun l hl => ?_, h.derivations⟩
      rcases Array.mem_push.1 hl with hl | rfl
      · exact h.linearizers l hl
      · exact ⟨c, Grammar.mem_of_resolveConcrete? hc, rfl⟩
  | parse n cat field =>
    rw [Workspace.perform]
    split
    · exact h
    · rename_i c hn
      exact h.request hbuild hg (h.parsers c (Array.mem_of_getElem? hn))
  | parseLabel n cat label =>
    rw [perform_parseLabel]
    split
    · exact h
    · rename_i c hn
      split
      · exact h
      · exact h.request hbuild hg (h.parsers c (Array.mem_of_getElem? hn))
  | concretize n id =>
    rw [Workspace.perform]
    split
    · exact h
    · rename_i l hn
      exact h.request hbuild hg (h.linearizers l (Array.mem_of_getElem? hn))
  | feed | results | nextResult | lit | hole | nextDerivation => exact h.request hbuild hg trivial
  | app name args =>
    exact (h.intern (v.symbols.extends_intern name)).request hbuild hg trivial
  | read text =>
    have hread := v.stores.extends_read text
    exact ⟨h.symbols.trans hread.symbols, h.session.store hread.exprs, h.parsers, h.linearizers,
      h.derivations⟩
  | intern name => exact h.intern (v.symbols.extends_intern name)
  | readApart text =>
    exact h.intern (({ symbols := v.symbols } : Stores).extends_read text).symbols
  | linearizeExpr n id field =>
    rw [Workspace.perform]
    split
    · split
      · exact h
      · exact ⟨h.symbols, h.session.count _, h.parsers, h.linearizers, h.derivations⟩
    · exact h
  | expectedTokens n =>
    rw [Workspace.perform]
    split <;> exact h
  | waiting n token =>
    rw [Workspace.perform]
    split <;> exact h
  | chart n =>
    rw [Workspace.perform]
    split <;> exact h
  | linearize n m field =>
    rw [Workspace.perform]
    split <;> exact h
  | write | translate => exact h

end Within

/-! ## Workspaces that differ in handles only -/

/-- Workspaces that hold the same, but for other names in their symbol stores and the handles of
stored expressions. -/
inductive Mirrors (u : Workspace) : Workspace → Prop where
  | mk {symbols : SymbolStore} {session : Session}
      (h : u.session.Mirrors u.symbols symbols session) : Mirrors u { u with symbols, session }

/-- What is interned in the first of them only makes no difference. -/
theorem Mirrors.intern (h : u.Mirrors v) {symbols : SymbolStore}
    (hsymbols : u.symbols.Extends symbols) : Mirrors { u with symbols } v := by
  cases h with
  | mk h => exact .mk (h.mono hsymbols (.refl _))

/-- The same reply, and workspaces that differ in handles only. -/
structure Agree (a b : Reply × Workspace) : Prop where
  reply : b.1 = a.1
  after : a.2.Mirrors b.2

section Mirrors

variable (h : u.Mirrors v)
include h

/-- What both do not know leaves them as they are. -/
theorem Mirrors.same (reply : Reply) : Agree (reply, u) (reply, v) := ⟨rfl, h⟩

theorem Mirrors.parsers_eq : v.parsers = u.parsers := by
  cases h
  rfl

theorem Mirrors.linearizers_eq : v.linearizers = u.linearizers := by
  cases h
  rfl

theorem Mirrors.derivations_eq : v.derivations = u.derivations := by
  cases h
  rfl

theorem Mirrors.states_eq : v.session.states = u.session.states := by
  cases h with
  | mk hsession =>
    cases hsession
    rfl

/-- Stored expressions are written in the same way. -/
theorem Mirrors.write (id : ExprId) :
    Agree (u.perform limit g (.write id)) (v.perform limit g (.write id)) := by
  refine ⟨?_, h⟩
  cases h with
  | mk hsession =>
    cases hsession with
    | mk hexprs => exact congrArg Reply.written (hexprs.text_eq id)

/-- A state sees the same. -/
theorem Mirrors.chart (n : Nat) :
    Agree (u.perform limit g (.chart n)) (v.perform limit g (.chart n)) := by
  cases h with
  | mk hsession =>
    cases hsession with
    | mk hexprs hentries =>
      rw [Workspace.perform, Workspace.perform]
      dsimp only
      split <;> exact ⟨rfl, .mk (.mk hexprs hentries)⟩

/-- Expressions are read in the same way, and stored with the same ids. -/
theorem Mirrors.read (text : String) :
    Agree (u.perform limit g (.read text)) (v.perform limit g (.read text)) := by
  cases h with
  | @mk symbols session hsession =>
    cases hsession with
    | @mk exprs entries hexprs hentries =>
      let t : Stores := ⟨symbols, exprs⟩
      have hstores : u.stores.Mirrors t := hexprs
      obtain ⟨hreply, hafter⟩ := hstores.read text
      have hentries' := hentries.imp fun a b hab => hab.mono (u.stores.extends_read text).symbols
        (t.extends_read text).symbols
      exact ⟨congrArg Reply.read hreply, .mk (.mk hafter hentries')⟩

variable (hu : u.Within limit base g) (hv : v.Within limit base g)
  (hbuild : w.build = .ok g) (hg : g.Named base)
include hu hv hg

/-- A parser is made of the same language, or of none. -/
theorem Mirrors.parser (language : String) :
    Agree (u.perform limit g (.parser language)) (v.perform limit g (.parser language)) := by
  rw [Workspace.perform, Workspace.perform, hg.resolveConcrete? hu.symbols,
    hg.resolveConcrete? hv.symbols]
  cases g.resolveConcrete? base language with
  | none => exact h.same _
  | some c =>
    cases h with
    | mk hsession => exact ⟨rfl, .mk hsession⟩

/-- So is a linearizer. -/
theorem Mirrors.linearizer (language : String) :
    Agree (u.perform limit g (.linearizer language))
      (v.perform limit g (.linearizer language)) := by
  rw [Workspace.perform, Workspace.perform, hg.resolveConcrete? hu.symbols,
    hg.resolveConcrete? hv.symbols]
  cases g.resolveConcrete? base language with
  | none => exact h.same _
  | some c =>
    cases h with
    | mk hsession => exact ⟨rfl, .mk hsession⟩

/-- A derivation is linearized in the same way. -/
theorem Mirrors.linearize (n m field : Nat) :
    Agree (u.perform limit g (.linearize n m field))
      (v.perform limit g (.linearize n m field)) := by
  rw [Workspace.perform, Workspace.perform, h.linearizers_eq, h.derivations_eq]
  cases hl : u.linearizers[n]? with
  | none => exact h.same _
  | some l =>
    cases hd : u.derivations[m]? with
    | none => exact h.same _
    | some d =>
      obtain ⟨c, hc, rfl⟩ := hu.linearizers l (Array.mem_of_getElem? hl)
      obtain ⟨c', e, hexpresses⟩ := hu.derivations d (Array.mem_of_getElem? hd)
      dsimp only
      rw [hg.linearize_eq (c := (Linearizer.ofConcrete g c).concrete) hu.symbols hc hexpresses,
        hg.linearize_eq (c := (Linearizer.ofConcrete g c).concrete) hv.symbols hc hexpresses]
      exact h.same _

/-- So is a stored expression. -/
theorem Mirrors.linearizeExpr (n : Nat) (id : ExprId) (field : Nat) :
    Agree (u.perform limit g (.linearizeExpr n id field))
      (v.perform limit g (.linearizeExpr n id field)) := by
  have hall := h
  cases h with
  | mk hsession =>
    cases hsession with
    | mk hexprs hentries =>
      rw [Workspace.perform, Workspace.perform]
      dsimp only
      cases hl : u.linearizers[n]? with
      | none => exact hall.same _
      | some l =>
        obtain ⟨c, hc, rfl⟩ := hu.linearizers l (Array.mem_of_getElem? hl)
        cases he : u.session.exprs.expr? id with
        | none =>
          rw [hexprs.expr?_eq_none he]
          exact hall.same _
        | some e =>
          obtain ⟨e', he', hmirrors⟩ := hexprs.exists_expr? he
          rw [he']
          dsimp only
          rw [hg.text_eq hu.symbols hv.symbols hc hmirrors]
          split
          · exact hall.same _
          · exact ⟨rfl, .mk (.mk hexprs hentries)⟩

include hbuild

/-- The same tokens are expected. -/
theorem Mirrors.expectedTokens (n : Nat) :
    Agree (u.perform limit g (.expectedTokens n)) (v.perform limit g (.expectedTokens n)) := by
  rw [Workspace.perform, Workspace.perform, h.states_eq]
  cases hn : u.session.states[n]? with
  | none => exact h.same _
  | some entry =>
    obtain ⟨o, state⟩ := entry
    dsimp only
    rw [hu.session.expectedTokens_eq hbuild hg hu.symbols hn,
      hu.session.expectedTokens_eq hbuild hg hv.symbols hn]
    exact h.same _

/-- As many items wait for a token. -/
theorem Mirrors.waiting (n : Nat) (token : String) :
    Agree (u.perform limit g (.waiting n token)) (v.perform limit g (.waiting n token)) := by
  rw [Workspace.perform, Workspace.perform, h.states_eq]
  cases hn : u.session.states[n]? with
  | none => exact h.same _
  | some entry =>
    obtain ⟨o, state⟩ := entry
    dsimp only
    rw [ParseState.waiting, ParseState.waiting,
      hu.session.waitingItems?_eq hbuild hg hu.symbols hn,
      hu.session.waitingItems?_eq hbuild hg hv.symbols hn]
    exact h.same _

/-- Requests come to the same. -/
theorem Mirrors.request {q q' : Request} (hq : q.Within g) (hq' : q'.Within g)
    (hqs : q.Mirrors u.symbols v.symbols q') :
    Agree (u.request limit q) (v.request limit q') := by
  rw [hu.request_eq hbuild hg hq, hv.request_eq hbuild hg hq']
  cases h with
  | mk hsession =>
    obtain ⟨hanswer, hafter⟩ := hsession.ask hu.session hg hu.symbols hv.symbols hqs
    dsimp only at hanswer ⊢
    rw [hanswer]
    refine ⟨rfl, ?_⟩
    cases (u.session.ask limit base q).1 with
    | derivation d? => cases d? <;> exact .mk hafter
    | unknown | refusal | halt | state | rejected | expr | enumeration | result | broken =>
      exact .mk hafter

/-- A node is stored with the same id. -/
theorem Mirrors.store {node node' : ExprStore.Node}
    (hnode : node.Mirrors u.symbols v.symbols node') :
    Agree (u.request limit (.store node)) (v.request limit (.store node')) :=
  h.request hu hv hbuild hg trivial trivial (.store hnode)

/-- A category and a label are found in the same way. -/
theorem Mirrors.parseLabel (n : Nat) (cat label : String) :
    Agree (u.perform limit g (.parseLabel n cat label))
      (v.perform limit g (.parseLabel n cat label)) := by
  rw [perform_parseLabel, perform_parseLabel, h.parsers_eq]
  cases hn : u.parsers[n]? with
  | none => exact h.same _
  | some c =>
    have hc := hu.parsers c (Array.mem_of_getElem? hn)
    dsimp only
    rw [hg.labelled? hu.symbols hc, hg.labelled? hv.symbols hc]
    split
    · exact h.same _
    · exact h.request hu hv hbuild hg hc hc (.refl (by simp))

/-- An application is stored with the same id, whatever handle the function gets. -/
theorem Mirrors.app (name : String) (args : List ExprId) :
    Agree (u.perform limit g (.app name args)) (v.perform limit g (.app name args)) := by
  have hu' := hu.intern (u.symbols.extends_intern name)
  have hv' := hv.intern (v.symbols.extends_intern name)
  have hfn := SymbolStore.namesakes_intern u.symbols v.symbols name
  cases h with
  | mk hsession =>
    have hafter : Mirrors { u with symbols := (u.symbols.intern name).2 } _ :=
      .mk (hsession.mono (u.symbols.extends_intern name) (SymbolStore.extends_intern _ name))
    exact hafter.store hu' hv' hbuild hg (.app hfn args)

/-- **Commands come to the same**, unless they only intern names. -/
theorem Mirrors.perform {q : Command} (hq : q.interns = false) :
    Agree (u.perform limit g q) (v.perform limit g q) := by
  have hrequest : ∀ q : Request, q.Within g → (∀ node, q ≠ .store node) →
      Agree (u.request limit q) (v.request limit q) :=
    fun q hq hstore => h.request hu hv hbuild hg hq hq (.refl hstore)
  cases q with
  | intern | readApart => cases hq
  | parser language => exact h.parser hu hv hg language
  | linearizer language => exact h.linearizer hu hv hg language
  | parse n cat field =>
    rw [Workspace.perform, Workspace.perform, h.parsers_eq]
    cases hn : u.parsers[n]? with
    | none => exact h.same _
    | some c => exact hrequest _ (hu.parsers c (Array.mem_of_getElem? hn)) (by simp)
  | parseLabel n cat label => exact h.parseLabel hu hv hbuild hg n cat label
  | feed n token => exact hrequest (.feed n token) trivial (by simp)
  | expectedTokens n => exact h.expectedTokens hu hv hbuild hg n
  | waiting n token => exact h.waiting hu hv hbuild hg n token
  | chart n => exact h.chart n
  | results n => exact hrequest (.results n) trivial (by simp)
  | nextResult n => exact hrequest (.nextResult n) trivial (by simp)
  | read text => exact h.read text
  | app name args => exact h.app hu hv hbuild hg name args
  | lit value => exact h.store hu hv hbuild hg (.lit value)
  | hole index => exact h.store hu hv hbuild hg (.hole index)
  | write id => exact h.write id
  | concretize n id =>
    rw [Workspace.perform, Workspace.perform, h.linearizers_eq]
    cases hn : u.linearizers[n]? with
    | none => exact h.same _
    | some l => exact hrequest _ (hu.linearizers l (Array.mem_of_getElem? hn)) (by simp)
  | nextDerivation n => exact hrequest (.nextDerivation n) trivial (by simp)
  | linearize n m field => exact h.linearize hu hv hg n m field
  | linearizeExpr n id field => exact h.linearizeExpr hu hv hg n id field
  | translate source target line options =>
    have hfits := fun c hc => Concrete.fits_of_build (c := c) hbuild hc
    rw [Workspace.perform, Workspace.perform, hg.renditions_eq hfits hu.symbols,
      hg.renditions_eq hfits hv.symbols]
    exact h.same _

end Mirrors

/-- **Commands that only intern names** make no difference to what differs in handles only. -/
theorem Mirrors.perform_interns (h : u.Mirrors v) {q : Command} (hq : q.interns = true) :
    (u.perform limit g q).2.Mirrors v := by
  cases q with
  | intern name => exact h.intern (u.symbols.extends_intern name)
  | readApart text =>
    exact h.intern (({ symbols := u.symbols } : Stores).extends_read text).symbols
  | _ => cases hq

/-! ## All commands -/

/-- Replies are the same with and without the interning, from workspaces that differ in handles
only. -/
theorem Mirrors.replies_eq (h : u.Mirrors v) (hu : u.Within limit base g)
    (hv : v.Within limit base g) (hbuild : w.build = .ok g) (hg : g.Named base)
    (qs : List Command) :
    replies limit g u qs = replies limit g v (qs.filter (!·.interns)) := by
  induction qs generalizing u v with
  | nil => rfl
  | cons q qs ih =>
    have hu' := hu.perform hbuild hg q
    cases hq : q.interns with
    | true =>
      -- Only the first one goes on.
      have hrest := ih (h.perform_interns hq) hu' hv
      simpa [replies, hq] using hrest
    | false =>
      obtain ⟨hreply, hafter⟩ := h.perform hu hv hbuild hg hq
      have hrest := ih hafter hu' (hv.perform hbuild hg q)
      simp [replies, hq, hreply, hrest]

/-- **Interning is unobservable.** Whatever names are interned in between, a program gets the same
replies to all that it does with a grammar. -/
theorem interning_unobservable (hbuild : w.build = .ok g) (limit : Nat) (qs : List Command) :
    replies limit g { symbols := w.draft.2.symbols } qs =
      replies limit g { symbols := w.draft.2.symbols } (qs.filter (!·.interns)) := by
  have hstart := within_start limit w.draft.2.symbols g
  have hsame : Session.Mirrors w.draft.2.symbols w.draft.2.symbols {} {} :=
    .mk (ExprStore.mirrors_empty _ _) .nil
  exact Mirrors.replies_eq (.mk hsame) hstart hstart hbuild (Grammar.named_of_build hbuild) qs

theorem interning_unobservable_giveItUp :
    ∃ g, particleVerbs.build = .ok g ∧
      replies 9 g { symbols := particleSymbols }
        [.intern "dog", .parser "English", .parser "dog", .parse 0 "Action" 0, .parse 0 "dog" 0,
          .readApart "frob(giveUp, cat", .feed 0 "give", .feed 1 "dog", .waiting 1 "cat",
          .intern "it", .feed 1 "it", .feed 2 "up", .results 3, .nextResult 0,
          .intern "bird", .app "swim" [], .linearizer "English", .concretize 0 ⟨0⟩,
          .nextDerivation 0, .linearize 0 0 0, .translate "English" "English" "give it dog" {}] =
      replies 9 g { symbols := particleSymbols }
        [.parser "English", .parser "dog", .parse 0 "Action" 0, .parse 0 "dog" 0,
          .feed 0 "give", .feed 1 "dog", .waiting 1 "cat",
          .feed 1 "it", .feed 2 "up", .results 3, .nextResult 0,
          .app "swim" [], .linearizer "English", .concretize 0 ⟨0⟩,
          .nextDerivation 0, .linearize 0 0 0,
          .translate "English" "English" "give it dog" {}] := by
  obtain ⟨g, hbuild, -⟩ := build_particleVerbs
  exact ⟨g, hbuild, interning_unobservable hbuild 9 _⟩

end Workspace

end Polyglot
