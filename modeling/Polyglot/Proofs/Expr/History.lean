import Polyglot.Proofs.Expr.Naming

/-!
# What is done to a store

A store is changed by calls that ask for the id of an application, a literal or a hole, and by
readings, which may fail half-way and leave the parts behind that were complete by then. As long as
the calls are made with ids that the store has given out, it keeps every expression once, whatever
they are and in whatever order they come.

- `ExprStore.Call`, `ExprStore.call`: what can be asked of a store.
- `ExprStore.Calls`: a number of calls, one after the other, and the ids that they return.
- `ExprStore.Call.Answered`: the id that a call is to return; `ExprStore.answered_call`.
- `ExprStore.stored_call`: what a call makes of a store.
- `ExprStore.calls_share`: what holds of a store after any calls.
-/

namespace Polyglot

open ExprStore

/-! ## Readings -/

namespace Stores

/-- A reading that succeeds stores the source of the text. -/
theorem read_of_source {s : Stores} {text : String} {source : Source}
    (h : (Source.read text.toList).toOption = some source) :
    s.read text = (.ok (s.internSource source).1, (s.internSource source).2) := by
  rw [Stores.read]
  cases hread : Source.read text.toList with
  | error f =>
    rw [hread] at h
    cases h
  | ok source' =>
    rw [hread] at h
    cases h
    rfl

/-- What is kept of a reading that failed is stored like anything else. -/
theorem sound_internFragments (fragments : List Source.Fragment) (s : Stores)
    (h : s.exprs.Sound) :
    (fragments.foldl internFragment s).exprs.Sound ∧
      s.exprs.Extends (fragments.foldl internFragment s).exprs := by
  induction fragments generalizing s with
  | nil => exact ⟨h, .refl _⟩
  | cons fragment fragments ih =>
    cases fragment with
    | name name => exact ih { s with symbols := (s.symbols.intern name).2 } h
    | part source =>
      have hstored := stored_internSource s h source
      obtain ⟨hsound, hextends⟩ := ih _ hstored.sound
      exact ⟨hsound, hstored.keeps.trans hextends⟩

end Stores

namespace ExprStore

/-! ## Calls -/

/-- What can be asked of a store: the id of an application, of a literal or of a hole, and the id of
the expression that a text is read as, with the symbols that the reader goes by. -/
inductive Call where
  | app (fn : Sym) (args : List ExprId)
  | lit (value : Literal)
  | hole (index : Nat)
  | read (symbols : SymbolStore) (text : String)

/-- The ids that a call is made with. -/
def Call.args : Call → List ExprId
  | .app _ args => args
  | .lit _ | .hole _ | .read .. => []

/-- Whether a call stores a single node. -/
def Call.isSingle : Call → Bool
  | .app .. | .lit _ | .hole _ => true
  | .read .. => false

/-- Answers a call. There is no id if a reading fails. -/
def call (s : ExprStore) : Call → Option ExprId × ExprStore
  | .app fn args => (some (s.app fn args).1, (s.app fn args).2)
  | .lit value => (some (s.lit value).1, (s.lit value).2)
  | .hole index => (some (s.hole index).1, (s.hole index).2)
  | .read symbols text =>
    let (id, stores) := (⟨symbols, s⟩ : Stores).read text
    (id.toOption, stores.exprs)

/-- How a call on the store `s` is answered, if it leaves the store `s'`: by an id of the node that
was asked for, where literals only have to count as equal, or of what the text spells, going by the
names that are known when it has been read; and by none if the text cannot be read. -/
inductive Call.Answered (s s' : ExprStore) : Call → Option ExprId → Prop where
  | app {fn : Sym} {args : List ExprId} {id : ExprId}
      (hnode : s'.resolve? id = some (.app fn args)) : Answered s s' (.app fn args) (some id)
  | lit {value value' : Literal} {id : ExprId} (halike : value.Alike value')
      (hnode : s'.resolve? id = some (.lit value')) : Answered s s' (.lit value) (some id)
  | hole {index : Nat} {id : ExprId} (hnode : s'.resolve? id = some (.hole index)) :
      Answered s s' (.hole index) (some id)
  | read {symbols symbols' : SymbolStore} {text : String} {source : Source} {id : ExprId}
      (hsource : Source.read text.toList = .ok source)
      (hsymbols : ((⟨symbols, s⟩ : Stores).read text).2.symbols = symbols')
      (hholds : (⟨symbols', s'⟩ : Stores).Holds source id) :
      Answered s s' (.read symbols text) (some id)
  | failed {symbols : SymbolStore} {text : String} {f : Source.Failure}
      (hfailure : Source.read text.toList = .error f) : Answered s s' (.read symbols text) none

/-- What some calls make of a store that has given out `ids`: the ids that it has given out
afterwards, in order, and what it has become. A call is only made with ids that were given out. -/
inductive Calls (ids : List ExprId) (s : ExprStore) : List ExprId → ExprStore → Prop where
  | none : Calls ids s ids s
  | call {ids' : List ExprId} {s' : ExprStore} (h : Calls ids s ids' s') (c : Call)
      (hargs : ∀ arg ∈ c.args, arg ∈ ids') :
      Calls ids s (ids' ++ (s'.call c).1.toList) (s'.call c).2

variable {s s' : ExprStore} {ids ids' : List ExprId} {c : Call}

/-- Every call is answered. -/
theorem answered_call (h : s.Sound) (c : Call) : c.Answered s (s.call c).2 (s.call c).1 := by
  cases c with
  | app fn args => exact .app (s.resolve?_app fn args)
  | lit value =>
    obtain ⟨value', hnode, heq⟩ := s.resolve?_lit value
    exact .lit (Literal.alike_iff.2 heq.symm) hnode
  | hole index => exact .hole (s.resolve?_hole index)
  | read symbols text =>
    cases hread : Source.read text.toList with
    | ok source =>
      have hsource : (Source.read text.toList).toOption = some source := by rw [hread]; rfl
      have hstores : (⟨symbols, s⟩ : Stores).read text = _ := Stores.read_of_source hsource
      obtain ⟨-, hholds⟩ := Stores.internSource_spec ⟨symbols, s⟩ h source
      rw [call, hstores]
      exact .read hread (congrArg (·.2.symbols) hstores) hholds
    | error f =>
      rw [call, Stores.read, hread]
      exact .failed hread

/-- What a call makes of a store. If it has an id to return then that is the last one, unless there
is nothing new. -/
theorem stored_call (h : s.Sound) (hargs : ∀ arg ∈ c.args, arg.index < s.size) :
    (s.call c).2.Sound ∧ s.Extends (s.call c).2 ∧
      ∀ id, (s.call c).1 = some id → Stored s [id] (s.call c).2 := by
  -- the same for all nodes, whose parts are among what the store has
  have hnode : ∀ node : Node, (∀ arg ∈ node.args, arg.index < s.size) →
      Stored s [(s.intern node).1] (s.intern node).2 :=
    fun node hnode => Stored.intern ⟨h, .refl s, hnode, .inl rfl⟩
  have hsingle : ∀ node : Node, (∀ arg ∈ node.args, arg.index < s.size) →
      (s.intern node).2.Sound ∧ s.Extends (s.intern node).2 ∧
        ∀ id, some (s.intern node).1 = some id → Stored s [id] (s.intern node).2 := by
    intro node hparts
    have hstored := hnode node hparts
    exact ⟨hstored.sound, hstored.keeps, fun id hid => Option.some.inj hid ▸ hstored⟩
  cases c with
  | app fn args => exact hsingle (.app fn args) hargs
  | lit value => exact hsingle (.lit value) nofun
  | hole index => exact hsingle (.hole index) nofun
  | read symbols text =>
    rw [call, Stores.read]
    cases Source.read text.toList with
    | ok source =>
      have hstored := Stores.stored_internSource ⟨symbols, s⟩ h source
      exact ⟨hstored.sound, hstored.keeps, fun id hid => Option.some.inj hid ▸ hstored⟩
    | error f =>
      obtain ⟨hsound, hextends⟩ := Stores.sound_internFragments f.fragments ⟨symbols, s⟩ h
      exact ⟨hsound, hextends, nofun⟩

/-- Calls keep a store sound, and it has all the ids that it gives out. -/
theorem Calls.sound (h : Calls ids s ids' s') (hs : s.Sound)
    (hids : ∀ id ∈ ids, id.index < s.size) :
    s'.Sound ∧ s.Extends s' ∧ ∀ id ∈ ids', id.index < s'.size := by
  induction h with
  | none => exact ⟨hs, .refl s, hids⟩
  | @call ids' s' _ c hargs ih =>
    obtain ⟨hsound, hextends, hlt⟩ := ih
    obtain ⟨hsound', hextends', hid⟩ := stored_call hsound fun arg harg => hlt arg (hargs arg harg)
    refine ⟨hsound', hextends.trans hextends', fun id hmem => ?_⟩
    rcases List.mem_append.1 hmem with hmem | hmem
    · exact Nat.lt_of_lt_of_le (hlt id hmem) hextends'.size_le
    · exact (hid id (Option.mem_toList.1 hmem)).index_lt id List.mem_cons_self

/-- A store that has all that another has begins as that one does. -/
theorem Extends.begins (h : s.Extends s') : s.nodes.toList <+: s'.nodes.toList := by
  refine List.prefix_iff_getElem?.2 fun i hi => ?_
  have hi' : i < s.nodes.size := by simpa using hi
  have hnode : s.resolve? ⟨i⟩ = some s.nodes[i] := by simp [resolve?, hi']
  have hnode' := h _ _ hnode
  simpa [resolve?] using hnode'

/-- A single node makes a store grow by one at most. -/
theorem size_call_le (h : c.isSingle = true) : (s.call c).2.size ≤ s.size + 1 := by
  have hnode : ∀ node : Node, (s.intern node).2.size ≤ s.size + 1 := by
    intro node
    rcases s.intern_cases node with ⟨_, _, _, hs⟩ | ⟨_, _, hs⟩
    · rw [hs]
      exact Nat.le_succ _
    · rw [hs]
      simp [size]
  cases c with
  | app fn args => exact hnode (.app fn args)
  | lit value => exact hnode (.lit value)
  | hole index => exact hnode (.hole index)
  | read symbols text => cases h

/-- **Every expression is kept once, and for good.** Whatever a store is asked for with ids that it
has given out, and whether readings succeed or fail:

- every call is answered by the id of what was asked for, unless it is to read a text that cannot be
  read;
- its ids are the numbers below its size, in the order in which nodes were stored: a call adds nodes
  at the end, and the id that it returns is the last one then, unless nothing was added; a call for
  a single node adds one at most;
- an id stands for the same node ever after;
- a node is made from smaller ids, so that every id stands for a whole expression;
- two ids are equal if and only if their expressions are, where the two zeros count as equal, and so
  do all that are not a number. -/
theorem calls_share (h : Calls [] {} ids s) :
    (∀ id, (s.resolve? id).isSome ↔ id.index < s.size) ∧ (∀ id ∈ ids, id.index < s.size) ∧
    (∀ c : Call, (∀ arg ∈ c.args, arg ∈ ids) → c.Answered s (s.call c).2 (s.call c).1 ∧
      s.nodes.toList <+: (s.call c).2.nodes.toList ∧
      (c.isSingle = true → (s.call c).2.size ≤ s.size + 1) ∧
      ∀ id, (s.call c).1 = some id →
        (s.call c).2 = s ∧ id.index < s.size ∨ id.index + 1 = (s.call c).2.size) ∧
    (∀ ids' s', Calls ids s ids' s' →
      ∀ id node, s.resolve? id = some node → s'.resolve? id = some node) ∧
    (∀ id node, s.resolve? id = some node → ∀ arg ∈ node.args, arg.index < id.index) ∧
    (∀ id, id.index < s.size → ∃ e, s.expr? id = some e) ∧
    ∀ id id' e e', s.expr? id = some e → s.expr? id' = some e' → (id = id' ↔ e.Alike e') := by
  obtain ⟨hsound, -, hlt⟩ := h.sound sound_empty nofun
  refine ⟨fun _ => resolve?_isSome_iff, hlt, fun c hargs => ?_, fun ids' s' hcalls => ?_,
    hsound.ordered, fun id => exists_expr? hsound.ordered, fun id id' e e' => hsound.eq_iff_alike⟩
  · obtain ⟨-, hextends, hid⟩ := stored_call hsound fun arg harg => hlt arg (hargs arg harg)
    refine ⟨answered_call hsound c, hextends.begins, size_call_le, fun id hreturn => ?_⟩
    have hstored := hid id hreturn
    rcases hstored.last with heq | ⟨x, hx, hlast⟩
    · exact .inl ⟨heq, heq ▸ hstored.index_lt id List.mem_cons_self⟩
    · exact .inr (List.mem_singleton.1 hx ▸ hlast)
  · exact (hcalls.sound hsound hlt).2.1

/-- A reading that fails behind a hole, which is kept. -/
theorem read_hole_close : Source.read ['?', '0', ')'] =
    .error ⟨.trailingInput, [')'], [.part (.hole 0)]⟩ := by
  have hatom : Source.readAtom '?' ['0', ')'] = .ok (.hole 0, ⟨[')'], by decide⟩) := by
    rw [Source.readAtom, if_neg (by decide), if_neg (by decide), if_pos rfl]
    rfl
  have hexpr : Source.readExpr ['?', '0', ')'] = .ok (.hole 0, ⟨[')'], by decide⟩) := by
    rw [Source.readExpr]
    split
    · rename_i hnil
      cases hnil
    · rename_i hcons
      cases hcons
      rw [if_neg (by decide +kernel), hatom]
      dsimp only
      rw [if_neg (by decide +kernel)]
      rfl
  rw [Source.read, hexpr]
  rfl

/-- Both zeros have one id, and the hole of a reading that failed has the next one. -/
theorem calls_share_zeros : ∃ ids s, Calls [] {} ids s ∧ ids = [⟨0⟩, ⟨0⟩, ⟨2⟩] ∧ s.size = 3 ∧
    s.resolve? ⟨1⟩ = some (.hole 0) ∧ (∀ id ∈ ids, id.index < s.size) ∧
    (∀ c : Call, (∀ arg ∈ c.args, arg ∈ ids) → c.Answered s (s.call c).2 (s.call c).1) ∧
    (∀ id node, s.resolve? id = some node → ∀ arg ∈ node.args, arg.index < id.index) ∧
    (∀ id, id.index < s.size → ∃ e, s.expr? id = some e) ∧
    ∀ id id' e e', s.expr? id = some e → s.expr? id' = some e' → (id = id' ↔ e.Alike e') := by
  have hread : ∀ s : ExprStore,
      s.call (.read {} (String.ofList ['?', '0', ')'])) = (none, (s.hole 0).2) := by
    intro s
    rw [call, Stores.read, String.toList_ofList, read_hole_close]
    rfl
  have hzero : Calls [] {} _ _ := Calls.none.call (.lit (.float ⟨2 ^ 63⟩)) nofun
  have hzeros := hzero.call (.lit (.float ⟨0⟩)) nofun
  have hfailed := hzeros.call (.read {} (String.ofList ['?', '0', ')'])) nofun
  rw [hread] at hfailed
  have hcalls := hfailed.call (.app ⟨0⟩ [⟨0⟩, ⟨0⟩]) (by decide +kernel)
  obtain ⟨-, hlt, hcall, -, hordered, hexpr, halike⟩ := calls_share hcalls
  exact ⟨_, _, hcalls, by decide +kernel, by decide +kernel, by decide +kernel, hlt,
    fun c hargs => (hcall c hargs).1, hordered, hexpr, halike⟩

end ExprStore

end Polyglot
