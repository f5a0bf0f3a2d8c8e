import Polyglot.Proofs.Grammar.Declared
import Polyglot.Proofs.Grammar.Spelling

/-!
# What declarations made

Every declaration of a concrete syntax is answered by what it made, and the ids in the answers are
good for the finished syntax: later declarations add instances, functions, sequences and productions
and take nothing away. Instances may gain productions long after they were made, and a category may
be declared again and again. What there is to be told of the finished syntax is a matter of all
declarations in order, and of nothing else.

- `Concrete.Holds`: what a declaration made is there, and is what was declared.
- `Concrete.Produces`: the productions of an instance are those that it took over and those that
  were added to it; they are unknown if there never was word of any.
- `Concrete.Gathers`: a category has the instances of all its declarations.
- `Concrete.Records`: a concrete syntax is what its declarations made of it.
- `Concrete.Records.shared`: ids of sequences are equal exactly if these were written alike.
-/

namespace Polyglot

/-! ## Answers -/

namespace Made

/-- The instances that a declaration made, in order. -/
def instanceIds : Made → List InstanceId
  | .coercion id => [id]
  | .instances ids => ids
  | _ => []

/-- The concrete functions that a declaration made. -/
def functionIds : Made → List FunId
  | .function id => [id]
  | _ => []

end Made

namespace ConcreteDeclaration

/-- The productions that an instance takes over when a declaration makes it. -/
def takenOver : ConcreteDeclaration → List Production
  | .coercion targets => targets.map .coerce
  | _ => []

/-- The productions that a declaration adds to an instance. -/
def added (id : InstanceId) : ConcreteDeclaration → List Production
  | .apply other fn args => if other = id then [.apply fn args] else []
  | .coerce other target => if other = id then [.coerce target] else []
  | _ => []

/-- What names no instance, or another one, adds nothing to it. -/
theorem added_eq_nil {d : ConcreteDeclaration} {id : InstanceId} (h : d.target? ≠ some id) :
    d.added id = [] := by
  cases d with
  | apply other fn args => exact if_neg fun heq => h (congrArg some heq)
  | coerce other target => exact if_neg fun heq => h (congrArg some heq)
  | _ => rfl

end ConcreteDeclaration

/-- The instances made for a category, in the order of its declarations. -/
def instancesMadeFor (name : String) (log : List (ConcreteDeclaration × Made)) :
    List InstanceId :=
  log.flatMap fun
    | (.category other _ _, made) => if other = name then made.instanceIds else []
    | _ => []

theorem instancesMadeFor_concat {name : String} {log : List (ConcreteDeclaration × Made)}
    {d : ConcreteDeclaration} {made : Made} : instancesMadeFor name (log ++ [(d, made)]) =
      instancesMadeFor name log ++ instancesMadeFor name [(d, made)] :=
  List.flatMap_append

/-- What does not declare a category makes no instances for it. -/
theorem instancesMadeFor_eq_nil {name : String} {log : List (ConcreteDeclaration × Made)}
    (h : ∀ p ∈ log, ∀ count labels, p.1 ≠ .category name count labels) :
    instancesMadeFor name log = [] := by
  rw [instancesMadeFor, List.flatMap_eq_nil_iff]
  rintro ⟨d, made⟩ hmem
  have hd := h _ hmem
  cases d with
  | category other count labels =>
    have hne : ¬ other = name := fun heq =>
      hd count labels (congrArg (ConcreteDeclaration.category · count labels) heq)
    exact if_neg hne
  | _ => rfl

/-! ## What was made is there -/

/-- What is at a place of a list is there in every longer one. -/
theorem getElem?_of_isPrefix {α : Type} {as bs : List α} (h : as <+: bs) {i : Nat} {a : α}
    (ha : as[i]? = some a) : bs[i]? = some a := by
  obtain ⟨rest, rfl⟩ := h
  rw [List.getElem?_append_left (List.getElem?_eq_some_iff.1 ha).1, ha]

namespace Concrete

variable {symbols symbols' : SymbolStore} {c c' : Concrete} {ds : List ConcreteDeclaration}
  {mades : List Made} {x : ConcreteDeclaration} {made : Made}

/-- A sequence id stands for a sequence that was written so. -/
def Resolves (c : Concrete) (symbols : SymbolStore) (seq : SeqId)
    (written : List WrittenConstituent) : Prop :=
  ∃ s, c.sequence? seq = some s ∧ Sequence.Spelled symbols written s

/-- What a declaration made is there, and is what was declared. -/
inductive Holds (c : Concrete) (symbols : SymbolStore) : ConcreteDeclaration → Made → Prop
  | flag (name value : String) : Holds c symbols (.flag name value) .nothing
  | category {name : String} {count : Nat} {labels : List String} {sym : Sym}
      {ids : List InstanceId} (hname : symbols.find? name = some sym) (hcount : ids.length = count)
      (hids : ∀ id ∈ ids, ∃ inst, c.instance? id = some inst ∧ inst.cat = some sym ∧
        inst.fieldCount = labels.length) :
      Holds c symbols (.category name count labels) (.instances ids)
  | coercion (targets : List InstanceId) {id : InstanceId} {inst : Instance}
      (hinst : c.instance? id = some inst) : Holds c symbols (.coercion targets) (.coercion id)
  | sequence {written : List WrittenConstituent} {seq : SeqId}
      (hseq : c.Resolves symbols seq written) : Holds c symbols (.sequence written) (.sequence seq)
  | function {name : String} {fn : FunId} {f : ConcreteFunction}
      (hfn : c.function? fn = some f) (hname : symbols.find? name = some f.name) :
      Holds c symbols (.function name f.fields) (.function fn)
  | functionWith {name : String} {fields : List (List WrittenConstituent)} {fn : FunId}
      {f : ConcreteFunction} (hfn : c.function? fn = some f)
      (hname : symbols.find? name = some f.name)
      (hfields : List.Forall₂ (fun written seq => c.Resolves symbols seq written) fields
        f.fields) : Holds c symbols (.functionWith name fields) (.function fn)
  | apply (id : InstanceId) (fn : FunId) (args : List InstanceId) :
      Holds c symbols (.apply id fn args) .nothing
  | coerce (id target : InstanceId) : Holds c symbols (.coerce id target) .nothing
  | markKnown (id : InstanceId) : Holds c symbols (.markKnown id) .nothing

/-- A syntax has all that another one had, though instances may have more productions. -/
structure Grows (c c' : Concrete) : Prop where
  instances : ∀ id inst, c.instance? id = some inst → ∃ inst', c'.instance? id = some inst' ∧
    inst'.cat = inst.cat ∧ inst'.fieldCount = inst.fieldCount
  functions : c.funs <+: c'.funs
  sequences : c.sequences <+: c'.sequences

theorem Resolves.mono {seq : SeqId} {written : List WrittenConstituent}
    (h : c.Resolves symbols seq written) (hsequences : c.sequences <+: c'.sequences)
    (hextends : symbols.Extends symbols') : c'.Resolves symbols' seq written := by
  obtain ⟨s, hs, hspelled⟩ := h
  exact ⟨s, getElem?_of_isPrefix hsequences hs, hspelled.mono hextends⟩

/-- What was made stays. -/
theorem Holds.mono (h : c.Holds symbols x made) (hgrows : c.Grows c')
    (hextends : symbols.Extends symbols') : c'.Holds symbols' x made := by
  cases h with
  | flag name value => exact .flag name value
  | category hname hcount hids =>
    refine .category (hextends.find? hname) hcount fun id hid => ?_
    obtain ⟨inst, hinst, hcat, hfields⟩ := hids id hid
    obtain ⟨inst', hinst', hcat', hfields'⟩ := hgrows.instances id inst hinst
    exact ⟨inst', hinst', hcat'.trans hcat, hfields'.trans hfields⟩
  | coercion targets hinst =>
    obtain ⟨inst', hinst', -⟩ := hgrows.instances _ _ hinst
    exact .coercion targets hinst'
  | sequence hseq => exact .sequence (hseq.mono hgrows.sequences hextends)
  | function hfn hname =>
    exact .function (getElem?_of_isPrefix hgrows.functions hfn) (hextends.find? hname)
  | functionWith hfn hname hfields =>
    exact .functionWith (getElem?_of_isPrefix hgrows.functions hfn) (hextends.find? hname)
      (hfields.imp fun _ _ hseq => hseq.mono hgrows.sequences hextends)
  | apply id fn args => exact .apply id fn args
  | coerce id target => exact .coerce id target
  | markKnown id => exact .markKnown id

/-! ## The record of a syntax -/

/-- The productions of an instance are those that it took over when it was made and those that were
added to it, in order. They are unknown if it took over none and nothing ever named it. -/
structure Produces (c : Concrete) (ds : List ConcreteDeclaration) (maker : ConcreteDeclaration)
    (id : InstanceId) : Prop where
  unknown : c.productions? id = none ↔
    (∀ targets, maker ≠ .coercion targets) ∧ ∀ d ∈ ds, d.target? ≠ some id
  listed : c.productionsOf id = maker.takenOver ++ ds.flatMap (·.added id)

/-- The concrete categories have the instances that were made for them, and are there once each. -/
structure Gathers (c : Concrete) (symbols : SymbolStore)
    (log : List (ConcreteDeclaration × Made)) : Prop where
  instances : ∀ k ∈ c.cats, ∃ name, symbols.find? name = some k.name ∧
    k.instances = instancesMadeFor name log
  declared : ∀ name count labels made, (.category name count labels, made) ∈ log →
    ∃ k ∈ c.cats, symbols.find? name = some k.name
  distinct : (c.cats.map (·.name)).Nodup

/-- A concrete syntax is what its declarations made of it. -/
structure Records (c : Concrete) (symbols : SymbolStore) (ds : List ConcreteDeclaration)
    (mades : List Made) : Prop where
  /-- All that was made is there, and is what was declared. -/
  held : List.Forall₂ (c.Holds symbols) ds mades
  /-- The instances are those that were made, each under an id of its own. -/
  instances : mades.flatMap Made.instanceIds =
    (List.range c.instances.length).map InstanceId.ofIndex
  /-- So are the concrete functions. -/
  functions : mades.flatMap Made.functionIds = (List.range c.funs.length).map FunId.mk
  /-- Sequences are shared. -/
  sequences : c.sequences.Nodup
  productions : ∀ maker made, (maker, made) ∈ ds.zip mades → ∀ id ∈ made.instanceIds,
    c.Produces ds maker id
  /-- Only instances that were made are given productions. -/
  targets : ∀ d ∈ ds, ∀ id, d.target? = some id → id.Below c.instances.length
  categories : c.Gathers symbols (ds.zip mades)

/-- Sequence ids are equal exactly if the sequences were written alike. -/
theorem Records.shared (h : c.Records symbols ds mades) {a b : SeqId}
    {written written' : List WrittenConstituent} (ha : c.Resolves symbols a written)
    (hb : c.Resolves symbols b written') : a = b ↔ written = written' := by
  obtain ⟨s, hs, hspelled⟩ := ha
  obtain ⟨s', hs', hspelled'⟩ := hb
  constructor
  · rintro rfl
    obtain rfl : s = s' := Option.some.inj (hs.symm.trans hs')
    exact hspelled.left_unique hspelled'
  · rintro rfl
    obtain rfl := hspelled.right_unique hspelled'
    obtain ⟨i⟩ := a
    obtain ⟨j⟩ := b
    have hi : i < c.sequences.length := (List.getElem?_eq_some_iff.1 hs).1
    exact congrArg SeqId.mk ((List.getElem?_inj hi h.sequences).1 (hs.trans hs'.symm))

end Concrete

end Polyglot
