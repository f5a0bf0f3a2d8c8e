import Polyglot.Proofs.Grammar.Fitting
import Polyglot.Proofs.Grammar.Productions

/-!
# What the checks of a grammar guarantee

A grammar that was built has passed all checks. For parsing one consequence of them counts: whatever
field of an instance is asked for, each production of the instance has a sequence for it, and that
sequence asks for fields that the arguments have. A coercion is seen as a production with a single
argument, of which it reads the field that is asked for.

- `Concrete.body?`: what a production makes of a field.
- `Concrete.WellFormed`: fields that are asked for are there.
- `Concrete.wellFormed_of_build`: the concrete syntaxes of a grammar that was built are well-formed.
-/

namespace Polyglot

namespace Production

/-- The instances that a production is applied to. A coercion has one. -/
def args : Production → List InstanceId
  | .apply _ args => args
  | .coerce target => [target]

/-- The concrete function of a production; a coercion has none. -/
def head : Production → Option FunId
  | .apply fn _ => some fn
  | .coerce _ => none

theorem eq_of_head_args {p p' : Production} (hhead : p.head = p'.head) (hargs : p.args = p'.args) :
    p = p' := by
  cases p <;> cases p' <;> simp_all [head, args]

end Production

namespace Concrete

/-- What a field consists of. A coercion reads the field that is asked for of its only argument. -/
def bodyOf? (c : Concrete) : Option FunId → Nat → Option Sequence
  | some fn, field => c.sequenceOf? fn field
  | none, field => some [.sub 0 field]

/-- What a production makes of a field. -/
def body? (c : Concrete) (p : Production) (field : Nat) : Option Sequence := c.bodyOf? p.head field

/-- Every production of an instance makes something of each field of the instance, out of fields
that its arguments have. -/
def WellFormed (c : Concrete) : Prop :=
  ∀ id p, p ∈ c.productionsOf id → ∀ n, c.fieldCount? id = some n → ∀ field < n,
    ∃ body, c.body? p field = some body ∧
      ∀ arg g, .sub arg g ∈ body →
        ∃ id' n', p.args[arg]? = some id' ∧ c.fieldCount? id' = some n' ∧ g < n'

/-- An applied function is one of the abstract syntax and has as many arguments. -/
def Declared (c : Concrete) (a : Abstract) : Prop :=
  ∀ id fn args, .apply fn args ∈ c.productionsOf id →
    ∃ f decl, c.function? fn = some f ∧ a.function? f.name = some decl ∧
      args.length = decl.arity

/-! ## Well-formed syntaxes -/

variable {a : Abstract} {c : Concrete}

/-- A production of an instance fits the instance's number of fields. -/
theorem Fits.of_mem (h : c.Fits a) {id : InstanceId} {p : Production}
    (hp : p ∈ c.productionsOf id) : ∃ n, c.fieldCount? id = some n ∧ p.Fits c a n := by
  obtain ⟨inst, hinst, hmem⟩ := mem_productionsOf.1 hp
  simp only [instance?, Option.bind_eq_some_iff, InstanceId.index?_eq_some_iff] at hinst
  obtain ⟨i, rfl, hi⟩ := hinst
  exact ⟨inst.fieldCount, fieldCount?_ofIndex hi,
    h.productions inst (List.mem_of_getElem? hi) p hmem⟩

theorem Fits.wellFormed (h : c.Fits a) : c.WellFormed := by
  intro id p hp n hn field hfield
  obtain ⟨n', hn', hfits⟩ := h.of_mem hp
  cases hn.symm.trans hn'
  cases p with
  | coerce target =>
    refine ⟨_, rfl, fun arg g hmem => ?_⟩
    simp only [List.mem_singleton, Constituent.sub.injEq] at hmem
    obtain ⟨rfl, rfl⟩ := hmem
    exact ⟨target, n, rfl, hfits.2, hfield⟩
  | apply fn args =>
    obtain ⟨f, hf, hlen, -, -, hreads⟩ := hfits
    have hfield' : field < f.fields.length := hlen ▸ hfield
    obtain ⟨decl, -, hsequences⟩ := h.functions f (List.mem_of_getElem? hf)
    obtain ⟨body, hbody, -⟩ := hsequences _ (List.getElem_mem hfield')
    refine ⟨body, ?_, fun arg g hmem => ?_⟩
    · simp [body?, bodyOf?, Production.head, sequenceOf?, hf, List.getElem?_eq_getElem hfield',
        hbody]
    · exact hreads _ (List.getElem_mem hfield') body hbody _ hmem arg g rfl

theorem Fits.declared (h : c.Fits a) : c.Declared a := by
  intro id fn args hp
  obtain ⟨n, -, f, hf, -, ⟨decl, hdecl, hargs⟩, -, -⟩ := h.of_mem hp
  exact ⟨f, decl, hf, hdecl, hargs⟩

/-- The concrete syntaxes of a grammar that was built are well-formed. -/
theorem wellFormed_of_build {w : WrittenGrammar} {g : Grammar} (h : w.build = .ok g)
    (hc : c ∈ g.concretes) : c.WellFormed :=
  (fits_of_build h hc).wellFormed

/-- They apply functions of its abstract syntax. -/
theorem declared_of_build {w : WrittenGrammar} {g : Grammar} (h : w.build = .ok g)
    (hc : c ∈ g.concretes) : c.Declared g.abs :=
  (fits_of_build h hc).declared

end Concrete

end Polyglot
