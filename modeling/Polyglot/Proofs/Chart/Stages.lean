import Polyglot.Proofs.Chart.Saturation

/-!
# What a chart is about, whatever it calls it

The references of a chart are places, and a place tells in which order things came about. A stage is
an item without references: in place of a category it has the lineage of the category, which is the
instance that it comes from with the fields that have been read of it. Which stages are reached at a
position can be said with no chart at all, and does not depend on the order in which a chart is
filled.

- `Lineage`, `Sketch`, `Stage`: categories, productions and items without references.
- `Setting`: all that parsing an input depends on, where productions have no order.
- `Setting.Reached`: the stages that are reached at a position.
- `Item.Shows`: which stage an item of a chart is at.
-/

namespace Polyglot

/-! ## Stages -/

/-- A category without a place: the instance that it comes from, and what has been read of it, in
order. -/
structure Lineage where
  root : InstanceId
  spans : List Span
  deriving DecidableEq

/-- A production over such categories. -/
structure Sketch where
  /-- The concrete function; a coercion has none. -/
  head : Option FunId
  args : List Lineage
  deriving DecidableEq

/-- A production of the grammar, none of whose arguments has been seen yet. -/
def Sketch.ofGrammar (p : Production) : Sketch := ⟨p.head, p.args.map fun id => ⟨id, []⟩⟩

/-- An item without references. -/
structure Stage where
  /-- The position where the field begins. -/
  start : Nat
  /-- The category that the field is of. -/
  cat : Lineage
  field : Nat
  production : Sketch
  dot : Nat := 0
  word : Nat := 0
  /-- The words of the constituent that comes next, if some of them have been read. -/
  form : List Sym := []
  deriving DecidableEq

instance : Nonempty Lineage := ⟨⟨.string, []⟩⟩

instance : Nonempty Stage := ⟨⟨0, ⟨.string, []⟩, 0, ⟨none, []⟩, 0, 0, []⟩⟩

namespace Stage

/-- Past the constituent that came next. -/
def advanced (σ : Stage) : Stage := { σ with dot := σ.dot + 1, word := 0, form := [] }

/-- On with another category as an argument. -/
def resume (σ : Stage) (arg : Nat) (l : Lineage) : Stage :=
  { σ with production.args := σ.production.args.set arg l }.advanced

/-- On by one word, out of those of a form. -/
def moved (σ : Stage) (ts : List Sym) : Stage :=
  if ts.length ≤ σ.word + 1 then σ.advanced else { σ with word := σ.word + 1, form := ts }

/-- The category that is complete when the field ends at a position. -/
def result (σ : Stage) (k : Nat) : Lineage :=
  ⟨σ.cat.root, σ.cat.spans ++ [⟨σ.field, σ.start, k⟩]⟩

end Stage

/-- All that parsing an input depends on. -/
structure Setting where
  /-- The productions of every instance, in no order. -/
  productions : InstanceId → Multiset Production
  /-- What makes up the fields. -/
  body : Option FunId → Nat → Option Sequence
  /-- The instances that the whole input may be. -/
  goals : Set InstanceId
  /-- The field of them that it is. -/
  goal : Nat
  input : Nat → Sym

/-- What parsing an input with a concrete syntax depends on. -/
def Concrete.setting (c : Concrete) (v : Nat → Sym) (ids : List InstanceId) (goal : Nat) :
    Setting where
  productions id := c.productionsOf id
  body := c.bodyOf?
  goals := {id | id ∈ ids}
  goal := goal
  input := v

namespace Setting

variable (G : Setting) (σ : Stage)

/-- The constituent that comes next. -/
def next? : Option Constituent := (G.body σ.production.head σ.field).bind (·[σ.dot]?)

/-- Nothing comes next. -/
def Over : Prop := ∃ body, G.body σ.production.head σ.field = some body ∧ body.length ≤ σ.dot

/-- The words that may come next, once for all forms that are alike. Within a form it is settled
which ones they are. -/
def forms : List (List Sym) :=
  match G.next? σ with
  | none => []
  | some x => if σ.word = 0 then x.forms.dedup else [σ.form]

/-- The stages that are reached at a position. -/
inductive Reached (G : Setting) : Nat → Stage → Prop where
  /-- The productions of the goals are reached before any input. -/
  | goal {id : InstanceId} {p : Production} (hid : id ∈ G.goals) (hp : p ∈ G.productions id) :
      Reached G 0 ⟨0, ⟨id, []⟩, G.goal, .ofGrammar p, 0, 0, []⟩
  /-- So are those of an instance that a field is asked of for the first time. -/
  | root {k arg f : Nat} {σ : Stage} {id : InstanceId} {p : Production} (h : Reached G k σ)
      (hx : G.next? σ = some (.sub arg f)) (harg : σ.production.args[arg]? = some ⟨id, []⟩)
      (hp : p ∈ G.productions id) : Reached G k ⟨k, ⟨id, []⟩, f, .ofGrammar p, 0, 0, []⟩
  /-- A further field of a category is one of the productions that have been read so far. -/
  | refine {j k arg f : Nat} {σ τ : Stage} (h : Reached G k σ)
      (hx : G.next? σ = some (.sub arg f)) (harg : σ.production.args[arg]? = some (τ.result j))
      (hτ : Reached G j τ) (hover : G.Over τ) (hle : j ≤ k) :
      Reached G k ⟨k, τ.result j, f, τ.production, 0, 0, []⟩
  /-- What has no words needs none. -/
  | skip {k : Nat} {σ : Stage} (h : Reached G k σ) (hword : σ.word = 0) (hform : [] ∈ G.forms σ) :
      Reached G k σ.advanced
  /-- The word that comes next is the next one of the input. -/
  | move {k : Nat} {σ : Stage} {ts : List Sym} (h : Reached G k σ) (hform : ts ∈ G.forms σ)
      (hword : ts[σ.word]? = some (G.input k)) : Reached G (k + 1) (σ.moved ts)
  /-- The field of an argument that comes next has been read. -/
  | resume {k arg : Nat} {σ τ : Stage} (h : Reached G τ.start σ)
      (hx : G.next? σ = some (.sub arg τ.field)) (harg : σ.production.args[arg]? = some τ.cat)
      (hτ : Reached G k τ) (hover : G.Over τ) : Reached G k (σ.resume arg (τ.result k))

/-- A field of a category is asked for at a position. -/
inductive Predicted (G : Setting) (k : Nat) : Lineage → Nat → Prop where
  | goal {id : InstanceId} (hk : k = 0) (hid : id ∈ G.goals) : Predicted G k ⟨id, []⟩ G.goal
  | asked {σ : Stage} {arg f : Nat} {l : Lineage} (h : Reached G k σ)
      (hx : G.next? σ = some (.sub arg f)) (harg : σ.production.args[arg]? = some l) :
      Predicted G k l f

/-- A field of a category that begins somewhere is complete at a position. -/
def Closed (G : Setting) (k start : Nat) (l : Lineage) (f : Nat) : Prop :=
  ∃ τ, Reached G k τ ∧ G.Over τ ∧ τ.start = start ∧ τ.cat = l ∧ τ.field = f

/-- A production has been read to the end of a field at a position. -/
def Produced (G : Setting) (k : Nat) (l : Lineage) (s : Sketch) : Prop :=
  ∃ τ, Reached G k τ ∧ G.Over τ ∧ τ.result k = l ∧ τ.production = s

variable {G} {σ} {k : Nat}

/-- A stage lies behind where it begins. -/
theorem Reached.start_le (h : G.Reached k σ) : σ.start ≤ k := by
  induction h with
  | goal | root | refine => exact Nat.le_refl _
  | skip _ _ _ ih => exact ih
  | @move k σ ts _ _ _ ih =>
    have hstart : (σ.moved ts).start = σ.start := by
      unfold Stage.moved
      split <;> rfl
    omega
  | resume _ _ _ _ _ ih ihτ => exact Nat.le_trans ih ihτ

end Setting

/-! ## The stages of items -/

/-- The lineage of a category. -/
def Names (F : Fact → Prop) (X : CatRef) (l : Lineage) : Prop := Chain F X l.root l.spans

/-- A production without its references. -/
structure ChartProduction.Shows (F : Fact → Prop) (q : ChartProduction) (s : Sketch) : Prop where
  head : q.head = s.head
  args : List.Forall₂ (Names F) q.args s.args

/-- The stage that an item is at. -/
structure Item.Shows (c : Concrete) (F : Fact → Prop) (i : Item) (σ : Stage) : Prop where
  cat : ∃ X top, F (.predicts i.set X i.field top) ∧ Names F X σ.cat
  start : i.set.step = σ.start
  field : i.field = σ.field
  production : i.production.Shows F σ.production
  dot : i.dot = σ.dot
  word : i.word = σ.word
  form : (if i.word = 0 then [] else ((c.constituent? i).bind (·.formAt? i.form)).getD []) = σ.form

variable {c : Concrete} {v : Nat → Sym} {ids : List InstanceId} {goal : Nat} {F F' : Fact → Prop}
  {X : CatRef} {l : Lineage} {q : ChartProduction} {s : Sketch} {i : Item} {σ : Stage}

theorem Names.mono (hF : ∀ φ, F φ → F' φ) (h : Names F X l) : Names F' X l := Chain.mono hF h

theorem Names.unique (hF : Functional F) {l' : Lineage} (h : Names F X l) (h' : Names F X l') :
    l = l' := by
  obtain ⟨hroot, hspans⟩ := Chain.unique hF h h'
  cases l
  cases l'
  simp_all

theorem names_grammar (F : Fact → Prop) (id : InstanceId) : Names F (.grammar id) ⟨id, []⟩ :=
  .grammar id

/-- The category that is complete when an item ends has what the item read. -/
theorem names_result {C : ChartCatId} {S : ItemSetRef} {f n : Nat} (h : Names F X σ.cat)
    (hdone : F (.closes C S X f n)) (hstart : S.step = σ.start) (hfield : f = σ.field) :
    Names F (.chart C) (σ.result C.step) := by
  have hchain := Chain.chart hdone h
  rwa [hstart, hfield] at hchain

namespace ChartProduction

theorem Shows.mono (hF : ∀ φ, F φ → F' φ) (h : q.Shows F s) : q.Shows F' s :=
  ⟨h.head, h.args.imp fun _ _ => Names.mono hF⟩

theorem Shows.unique (hF : Functional F) {s' : Sketch} (h : q.Shows F s) (h' : q.Shows F s') :
    s = s' := by
  have hargs : s.args = s'.args := by
    have hflip := h.args
    have hflip' := h'.args
    generalize q.args = as at hflip hflip'
    generalize s.args = ls, s'.args = ls' at hflip hflip'
    induction hflip generalizing ls' with
    | nil => exact (List.forall₂_nil_left_iff.1 hflip').symm
    | cons hX _ ih =>
      cases hflip' with
      | cons hX' hrest => rw [hX.unique hF hX', ih _ hrest]
  have hhead := h.head.symm.trans h'.head
  cases s
  cases s'
  simp_all

theorem shows_ofGrammar (F : Fact → Prop) (p : Production) :
    (ofGrammar p).Shows F (.ofGrammar p) := by
  refine ⟨head_ofGrammar p, ?_⟩
  rw [args_ofGrammar, Sketch.ofGrammar, List.forall₂_map_left_iff, List.forall₂_map_right_iff,
    List.forall₂_same]
  exact fun id _ => names_grammar F id

/-- An argument of a production has its lineage. -/
theorem Shows.exists_names (h : q.Shows F s) {arg : Nat} (hX : q.args[arg]? = some X) :
    ∃ l, s.args[arg]? = some l ∧ Names F X l := by
  obtain ⟨harg, rfl⟩ := List.getElem?_eq_some_iff.1 hX
  have harg' : arg < s.args.length := h.args.length_eq ▸ harg
  exact ⟨_, List.getElem?_eq_getElem harg', h.args.get harg harg'⟩

theorem Shows.exists_arg (h : q.Shows F s) {arg : Nat} (hl : s.args[arg]? = some l) :
    ∃ X, q.args[arg]? = some X ∧ Names F X l := by
  obtain ⟨harg, rfl⟩ := List.getElem?_eq_some_iff.1 hl
  have harg' : arg < q.args.length := h.args.length_eq ▸ harg
  exact ⟨_, List.getElem?_eq_getElem harg', h.args.get harg' harg⟩

theorem Shows.bind (h : q.Shows F s) {arg : Nat} {Y : CatRef} (hX : q.args[arg]? = some X)
    (hY : Names F Y l) : (q.bind arg Y).Shows F ⟨s.head, s.args.set arg l⟩ := by
  refine ⟨by rw [head_bind, h.head], ?_⟩
  rw [args_bind hX]
  refine List.forall₂_iff_get.2 ⟨by simp [h.args.length_eq], fun n hn hn' => ?_⟩
  simp only [List.get_eq_getElem, List.getElem_set]
  split
  · exact hY
  · exact h.args.get (by simpa using hn) (by simpa using hn')

end ChartProduction

namespace Item

theorem Shows.next?_eq (h : i.Shows c F σ) :
    (c.setting v ids goal).next? σ = c.constituent? i := by
  rw [Setting.next?, Concrete.constituent?, h.production.head, h.field, h.dot]
  rfl

theorem Shows.over_iff (h : i.Shows c F σ) : (c.setting v ids goal).Over σ ↔ c.Ended i := by
  rw [Setting.Over, Concrete.Ended, h.production.head, h.field, h.dot]
  rfl

theorem Shows.mono (hF : ∀ φ, F φ → F' φ) (h : i.Shows c F σ) : i.Shows c F' σ where
  cat := by
    obtain ⟨X, top, hset, hX⟩ := h.cat
    exact ⟨X, top, hF _ hset, hX.mono hF⟩
  start := h.start
  field := h.field
  production := h.production.mono hF
  dot := h.dot
  word := h.word
  form := h.form

theorem Shows.unique (hF : Functional F) {σ' : Stage} (h : i.Shows c F σ)
    (h' : i.Shows c F σ') : σ = σ' := by
  obtain ⟨⟨X, top, hset, hX⟩, hstart, hfield, hproduction, hdot, hword, hform⟩ := h
  obtain ⟨⟨X', top', hset', hX'⟩, hstart', hfield', hproduction', hdot', hword', hform'⟩ := h'
  obtain ⟨rfl, -, -⟩ := hF.predicts _ _ _ _ _ _ _ hset hset'
  have hcat := hX.unique hF hX'
  have hsketch := hproduction.unique hF hproduction'
  cases σ
  cases σ'
  simp_all

/-- Before the first word it does not matter which form an item has. -/
theorem Shows.with_form (h : i.Shows c F σ) (hword : i.word = 0) (form : Nat) :
    ({ i with form } : Item).Shows c F σ :=
  ⟨h.cat, h.start, h.field, h.production, h.dot, h.word, by
    rw [← h.form, if_pos hword, if_pos hword]⟩

theorem Shows.advanced (h : i.Shows c F σ) : i.advanced.Shows c F σ.advanced :=
  ⟨h.cat, h.start, h.field, h.production, congrArg (· + 1) h.dot, rfl, rfl⟩

theorem Shows.resume (h : i.Shows c F σ) {arg : Nat} (hX : i.production.args[arg]? = some X)
    {C : ChartCatId} (hC : Names F (.chart C) l) :
    (i.resume arg C).Shows c F (σ.resume arg l) :=
  ⟨h.cat, h.start, h.field, h.production.bind hX hC, congrArg (· + 1) h.dot, rfl, rfl⟩

theorem shows_start {S : ItemSetRef} {f : Nat} {top : Bool} (hset : F (.predicts S X f top))
    (hX : Names F X l) (hq : q.Shows F s) :
    ({ set := S, production := q, field := f } : Item).Shows c F ⟨S.step, l, f, s, 0, 0, []⟩ :=
  ⟨⟨X, top, hset, hX⟩, rfl, rfl, hq, rfl, rfl, rfl⟩

/-- The form that an item has is one of the forms of its stage. -/
theorem Shows.mem_forms (h : i.Shows c F σ) {x : Constituent} (hx : c.constituent? i = some x)
    {ts : List Sym} (hform : x.formAt? i.form = some ts) :
    ts ∈ (c.setting v ids goal).forms σ := by
  rw [Setting.forms, h.next?_eq, hx]
  dsimp only
  split
  · exact List.mem_dedup.2 (Constituent.mem_forms_iff.2 ⟨_, hform⟩)
  · rename_i hword
    rw [← h.form, if_neg (by rwa [h.word]), hx, Option.bind_some, hform]
    exact List.mem_singleton_self _

theorem Shows.moved (h : i.Shows c F σ) {x : Constituent} (hx : c.constituent? i = some x)
    {ts : List Sym} (hform : x.formAt? i.form = some ts) :
    (i.moved ts.length).Shows c F (σ.moved ts) := by
  obtain ⟨hcat, hstart, hfield, hproduction, hdot, hword, -⟩ := h
  unfold Item.moved Stage.moved
  dsimp only
  rw [← hword]
  split
  · exact ⟨hcat, hstart, hfield, hproduction, congrArg (· + 1) hdot, rfl, rfl⟩
  · refine ⟨hcat, hstart, hfield, hproduction, hdot, rfl, ?_⟩
    rw [if_neg (Nat.succ_ne_zero _)]
    change ((c.constituent? i).bind (·.formAt? i.form)).getD [] = ts
    rw [hx, Option.bind_some, hform, Option.getD_some]

end Item

end Polyglot
