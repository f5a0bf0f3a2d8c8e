import Mathlib
import Polyglot.Grammar.Validation
import Polyglot.Proofs.Checks

/-!
# Concrete syntaxes that fit together

What the checks of a concrete syntax ask for, said without their order and without their errors. A
check passes exactly if what it asks for is the case: those of an argument or a field that is read,
of a concrete function, of a production, and then of a whole concrete syntax.

- `Concrete.Serves`: a concrete function is declared and reads arguments that it has.
- `Production.Fits`: a production fits an instance with some number of fields.
- `Concrete.Fits`: all parts of a concrete syntax fit together.
- `Concrete.check_eq_ok_iff`: this is what is checked.
- `Draft.checkConcretes_eq_ok_iff`: and of several syntaxes, that they have different names.
- `Concrete.fits_of_build`: the concrete syntaxes of a grammar that was built fit.
-/

namespace Polyglot

namespace Abstract

/-- A category is declared. -/
def Declares (a : Abstract) (cat : Sym) : Prop := ∃ k ∈ a.cats, k.name = cat

variable {symbols : SymbolStore} {a : Abstract}

theorem category?_isSome {cat : Sym} : (a.category? cat).isSome ↔ a.Declares cat := by
  simp [category?, Declares]

/-- The functions use declared categories only. -/
theorem check_eq_ok_iff :
    a.check symbols = .ok () ↔ ∀ f ∈ a.funs, ∀ cat ∈ f.args ++ [f.cat], a.Declares cat := by
  simp only [check, forM_eq_ok]
  refine forall₂_congr fun f _ => forall₂_congr fun cat _ => ?_
  rw [← category?_isSome]
  split <;> simp [*]

end Abstract

namespace Concrete

/-- A concrete function is one of the abstract syntax, and its sequences are there and read
arguments that it has. -/
def Serves (c : Concrete) (a : Abstract) (f : ConcreteFunction) : Prop :=
  ∃ decl, a.function? f.name = some decl ∧ ∀ seq ∈ f.fields, ∃ s, c.sequence? seq = some s ∧
    ∀ x ∈ s, ∀ arg, x.arg? = some arg → arg < decl.arity

/-- What the sequences of a concrete function read are fields that the arguments have. -/
def Readable (c : Concrete) (f : ConcreteFunction) (args : List InstanceId) : Prop :=
  ∀ seq ∈ f.fields, ∀ s, c.sequence? seq = some s → ∀ x ∈ s, ∀ arg field,
    x.read? = some (arg, field) →
      ∃ id n, args[arg]? = some id ∧ c.fieldCount? id = some n ∧ field < n

end Concrete

/-- A production fits an instance with `n` fields. An application is of a concrete function with as
many sequences, to as many arguments as its declaration takes, all of them there, with the fields
that are read of them; a coercion takes over from an instance with as many fields. -/
def Production.Fits (c : Concrete) (a : Abstract) (n : Nat) : Production → Prop
  | .apply fn args =>
    ∃ f, c.function? fn = some f ∧ f.fields.length = n ∧
      (∃ decl, a.function? f.name = some decl ∧ args.length = decl.arity) ∧
      (∀ arg ∈ args, c.hasInstance arg) ∧ c.Readable f args
  | .coerce target => c.hasInstance target ∧ c.fieldCount? target = some n

namespace Concrete

/-- All parts of a concrete syntax fit together and with the abstract syntax. -/
structure Fits (c : Concrete) (a : Abstract) : Prop where
  categories : ∀ k ∈ c.cats, a.Declares k.name
  functions : ∀ f ∈ c.funs, c.Serves a f
  productions : ∀ inst ∈ c.instances, ∀ p ∈ inst.productions.getD [],
    p.Fits c a inst.fieldCount

variable {symbols : SymbolStore} {a : Abstract} {c : Concrete}

/-! ## One check at a time -/

theorem hasInstance_of_fieldCount? {id : InstanceId} {n : Nat} (h : c.fieldCount? id = some n) :
    c.hasInstance id := by
  rw [fieldCount?] at h
  split at h
  · simp [hasInstance, *]
  · obtain ⟨inst, hinst, -⟩ := Option.map_eq_some_iff.1 h
    simp [hasInstance, hinst]

theorem checkCategories_eq_ok_iff :
    c.checkCategories symbols a = .ok () ↔ ∀ k ∈ c.cats, a.Declares k.name := by
  rw [checkCategories, forM_eq_ok]
  refine forall₂_congr fun k _ => ?_
  rw [← Abstract.category?_isSome]
  split <;> simp [*]

theorem checkArgument_eq_ok_iff {fn : String} {arity : Nat} {x : Constituent} :
    checkArgument fn arity x = .ok () ↔ ∀ arg, x.arg? = some arg → arg < arity := by
  rw [checkArgument]
  cases x.arg? with
  | none => simp
  | some arg => dsimp only; split <;> simp [*]

theorem checkFunction_eq_ok_iff {f : ConcreteFunction} :
    c.checkFunction symbols a f = .ok () ↔ c.Serves a f := by
  rw [checkFunction, Serves]
  cases a.function? f.name with
  | none => simp
  | some decl =>
    simp only [Option.some.injEq, exists_eq_left', forM_eq_ok]
    refine forall₂_congr fun seq _ => ?_
    cases c.sequence? seq with
    | none => simp
    | some s => simp only [forM_eq_ok, checkArgument_eq_ok_iff, Option.some.injEq, exists_eq_left']

/-- What is not there is checked as something without fields, so a read of it fails as well. -/
theorem checkRead_eq_ok_iff {fn : String} {args : List InstanceId} {arg field : Nat} :
    c.checkRead fn args (arg, field) = .ok () ↔
      ∃ id n, args[arg]? = some id ∧ c.fieldCount? id = some n ∧ field < n := by
  have hcount : field < (args[arg]?.bind c.fieldCount?).getD 0 ↔
      ∃ id n, args[arg]? = some id ∧ c.fieldCount? id = some n ∧ field < n := by
    cases args[arg]? with
    | none => simp
    | some id => cases h : c.fieldCount? id <;> simp [h]
  rw [← hcount, checkRead]
  simp only [ite_eq_left_iff, reduceCtorEq, imp_false, not_not]

theorem mem_readsOf {f : ConcreteFunction} {read : Nat × Nat} :
    read ∈ c.readsOf f ↔
      ∃ seq ∈ f.fields, ∃ s, c.sequence? seq = some s ∧ ∃ x ∈ s, x.read? = some read := by
  simp only [readsOf, List.mem_filterMap, List.mem_flatten]
  constructor
  · rintro ⟨x, ⟨s, ⟨seq, hseq, hs⟩, hx⟩, hread⟩
    exact ⟨seq, hseq, s, hs, x, hx, hread⟩
  · rintro ⟨seq, hseq, s, hs, x, hx, hread⟩
    exact ⟨x, ⟨s, ⟨seq, hseq, hs⟩, hx⟩, hread⟩

theorem forM_checkRead_eq_ok_iff {fn : String} {f : ConcreteFunction} {args : List InstanceId} :
    (c.readsOf f).forM (c.checkRead fn args) = .ok () ↔ c.Readable f args := by
  rw [forM_eq_ok]
  constructor
  · intro h seq hseq s hs x hx arg field hread
    exact checkRead_eq_ok_iff.1 (h _ (mem_readsOf.2 ⟨seq, hseq, s, hs, x, hx, hread⟩))
  · rintro h ⟨arg, field⟩ hmem
    obtain ⟨seq, hseq, s, hs, x, hx, hread⟩ := mem_readsOf.1 hmem
    exact checkRead_eq_ok_iff.2 (h seq hseq s hs x hx arg field hread)

/-- The check of a production counts on its function being declared: it takes the number of
arguments to be 0 where it finds no declaration. -/
theorem checkProduction_eq_ok_iff (hfuns : ∀ f ∈ c.funs, c.Serves a f) {id : InstanceId} {n : Nat}
    {p : Production} : c.checkProduction symbols a id n p = .ok () ↔ p.Fits c a n := by
  cases p with
  | coerce target =>
    rw [checkProduction, Production.Fits]
    cases htarget : c.fieldCount? target with
    | none => simp
    | some m =>
      simp only [hasInstance_of_fieldCount? htarget, true_and, Option.some.injEq]
      split <;> simp [*]
  | apply fn args =>
    rw [checkProduction, Production.Fits]
    cases hf : c.function? fn with
    | none => simp
    | some f =>
      obtain ⟨decl, hdecl, -⟩ := hfuns f (List.mem_of_getElem? hf)
      simp only [hdecl, Option.map_some, Option.getD_some, Option.some.injEq, exists_eq_left']
      rw [guard_eq_ok, guard_eq_ok, seq_eq_ok, forM_eq_ok, forM_checkRead_eq_ok_iff]
      simp only [ne_eq, not_not]
      refine and_congr_right fun _ => and_congr_right fun _ => and_congr_left fun _ =>
        forall₂_congr fun arg _ => ?_
      split <;> simp [*]

/-! ## A concrete syntax -/

theorem check_eq_ok_iff : c.check symbols a = .ok () ↔ c.Fits a := by
  rw [check, seq_eq_ok, seq_eq_ok, checkCategories_eq_ok_iff, forM_eq_ok, forM_eq_ok]
  simp only [checkFunction_eq_ok_iff]
  constructor
  · rintro ⟨hcats, hfuns, hinstances⟩
    refine ⟨hcats, hfuns, fun inst hinst p hp => ?_⟩
    obtain ⟨i, hi, rfl⟩ := List.getElem_of_mem hinst
    have hcheck := hinstances (c.instances[i], i)
      (List.mem_zipIdx_iff_getElem?.2 (List.getElem?_eq_getElem hi))
    exact (checkProduction_eq_ok_iff hfuns).1 (forM_eq_ok.1 hcheck p hp)
  · rintro ⟨hcats, hfuns, hproductions⟩
    refine ⟨hcats, hfuns, fun entry hentry => forM_eq_ok.2 fun p hp => ?_⟩
    have hinst := List.mem_of_getElem? (List.mem_zipIdx_iff_getElem?.1 hentry)
    exact (checkProduction_eq_ok_iff hfuns).2 (hproductions entry.1 hinst p hp)

end Concrete

/-! ## Several concrete syntaxes -/

namespace Draft

/-- Concrete syntaxes pass if they and those before them have different names and each of them
fits. -/
theorem checkConcretes_eq_ok_iff {symbols : SymbolStore} {a : Abstract}
    {earlier cs : List Concrete} (hearlier : (earlier.map (·.name)).Nodup) :
    checkConcretes symbols a earlier cs = .ok () ↔
      ((earlier ++ cs).map (·.name)).Nodup ∧ ∀ c ∈ cs, c.Fits a := by
  induction cs generalizing earlier with
  | nil => simpa [checkConcretes] using hearlier
  | cons c cs ih =>
    rw [checkConcretes]
    by_cases hname : c.name ∈ earlier.map (·.name)
    · have hdup : ¬ ((earlier ++ c :: cs).map (·.name)).Nodup := by
        rw [List.map_append, List.nodup_append]
        exact fun h => h.2.2 _ hname _ (by simp) rfl
      have hany : earlier.any (·.name = c.name) := by simpa using hname
      simp only [hany, if_true, reduceCtorEq, hdup, false_and]
    · have hany : ¬ earlier.any (·.name = c.name) := by simpa using hname
      have hnodup : ((earlier ++ [c]).map (·.name)).Nodup := by
        rw [List.map_append, List.nodup_append]
        refine ⟨hearlier, by simp, fun n hn m hm => ?_⟩
        rintro rfl
        rw [List.map_singleton, List.mem_singleton] at hm
        exact hname (hm ▸ hn)
      rw [if_neg hany, seq_eq_ok, Concrete.check_eq_ok_iff, ih hnodup, List.append_assoc,
        List.singleton_append, List.forall_mem_cons]
      tauto

/-- A draft that is finished has passed all checks, in the order in which they are made. -/
theorem finish_eq_ok_iff {d : Draft} {g : Grammar} :
    d.finish = .ok g ↔ d.error = none ∧ d.abs.check d.symbols = .ok () ∧
      checkConcretes d.symbols d.weighted [] d.concretes = .ok () ∧
      g = { abs := d.weighted, concretes := d.concretes } := by
  unfold finish
  cases d.error with
  | some e => simp
  | none =>
    simp only [bind_eq_ok, true_and]
    constructor
    · rintro ⟨⟨⟩, habs, ⟨⟩, hconcretes, heq⟩
      exact ⟨habs, hconcretes, (Except.ok.inj heq).symm⟩
    · rintro ⟨habs, hconcretes, rfl⟩
      exact ⟨(), habs, (), hconcretes, rfl⟩

end Draft

/-- The concrete syntaxes of a grammar that was built fit. -/
theorem Concrete.fits_of_build {w : WrittenGrammar} {g : Grammar} {c : Concrete}
    (h : w.build = .ok g) (hc : c ∈ g.concretes) : c.Fits g.abs := by
  obtain ⟨-, -, hconcretes, rfl⟩ := Draft.finish_eq_ok_iff.1 h
  have hnone : (([] : List Concrete).map (·.name)).Nodup := List.nodup_nil
  exact ((Draft.checkConcretes_eq_ok_iff hnone).1 hconcretes).2 c hc

end Polyglot
