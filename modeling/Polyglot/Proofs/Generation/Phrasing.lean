import Polyglot.Proofs.Generation.Correspondence

/-!
# From derivations to phrases

A derivation that meets nothing but words at a field is the trace of a phrase: the coercions on the
ways up from the arguments are put back, and arguments of which the field reads nothing are left
open. On each way up no instance comes twice, so none does between two applications of the phrase.

- `Derivation.Plain`: linearization meets no literal, no hole and no variable.
- `Derivation.visible`: what is left of an expression if what is not read is made a hole.
- `Phrase.Direct`: a phrase whose coercions go nowhere twice.
- `Derivation.Expresses.exists_phrase`: the phrase of a derivation.
-/

namespace Polyglot

/-! ## What linearization meets -/

/-- A constituent is made of words, given what the arguments are at each field. -/
def Constituent.Plain (args : List (Nat → Prop)) : Constituent → Prop
  | .sub arg field => ∀ plain, args[arg]? = some plain → plain field
  | .lit .. | .var .. => False
  | .tokens _ | .variants _ => True

namespace Derivation

section Visible

variable (c : Concrete)

mutual

/-- The linearization of a derivation at a field meets no literal, no hole and no variable. -/
def Plain : Derivation → Nat → Prop
  | .hole _ => fun _ => False
  | .lit _ _ => fun _ => False
  | .app _ fn _ args => fun field =>
    ∀ s, c.sequenceOf? fn field = some s → ∀ x ∈ s, Constituent.Plain (plainAll args) x

/-- The same for several derivations. -/
def plainAll : List Derivation → List (Nat → Prop)
  | [] => []
  | d :: ds => Plain d :: plainAll ds

end

/-- The fields that a concrete function reads of an argument for some of its own fields. -/
def readsOf (fn : FunId) (fields : List Nat) (arg : Nat) : List Nat :=
  fields.flatMap fun field => fieldsOf arg ((c.sequenceOf? fn field).getD [])

mutual

/-- What a derivation of an expression shows of it at some fields: an argument of which nothing is
read is a hole. -/
def visible : Derivation → List Nat → Expr → Expr
  | .app _ fn _ ds, fields, .app name es =>
    .app name (visibleAll ds (readsOf c fn fields) es)
  | .app .., _, e => e
  | .lit .., _, e => e
  | .hole _, _, e => e

/-- The same for several derivations, given the fields that are read of each. -/
def visibleAll : List Derivation → (Nat → List Nat) → List Expr → List Expr
  | d :: ds, reads, e :: es =>
    (if reads 0 = [] then .hole 0 else visible d (reads 0) e) ::
      visibleAll ds (fun i => reads (i + 1)) es
  | [], _, _ => []
  | _ :: _, _, [] => []

end

/-- What a derivation shows of its expression, if anything. -/
def shown (d : Derivation) (fields : List Nat) (e : Expr) : Expr :=
  if fields = [] then .hole 0 else visible c d fields e

end Visible

variable {c : Concrete}

theorem plainAll_eq_map (ds : List Derivation) : plainAll c ds = ds.map (Plain c) := by
  induction ds with
  | nil => rfl
  | cons d ds ih => rw [plainAll, ih, List.map_cons]

theorem length_visibleAll {ds : List Derivation} {reads : Nat → List Nat} {es : List Expr}
    (h : ds.length = es.length) : (visibleAll c ds reads es).length = es.length := by
  induction ds generalizing reads es with
  | nil =>
    cases es with
    | nil => rfl
    | cons e es => cases h
  | cons d ds ih =>
    cases es with
    | nil => cases h
    | cons e es => rw [visibleAll, List.length_cons, List.length_cons, ih (Nat.succ.inj h)]

theorem getElem?_visibleAll {ds : List Derivation} {reads : Nat → List Nat} {es : List Expr}
    {i : Nat} {d : Derivation} {e : Expr} (hd : ds[i]? = some d) (he : es[i]? = some e) :
    (visibleAll c ds reads es)[i]? = some (d.shown c (reads i) e) := by
  induction ds generalizing reads es i with
  | nil => cases hd
  | cons d' ds ih =>
    cases es with
    | nil => cases he
    | cons e' es =>
      cases i with
      | zero =>
        cases hd
        cases he
        rfl
      | succ i => exact @ih (fun i => reads (i + 1)) es i hd he

end Derivation

/-! ## Coercions put back -/

/-- A phrase that makes an instance without going through an instance twice between applications;
`path` is where it has been since the last one. -/
inductive Phrase.Direct : List InstanceId → InstanceId → Phrase → Prop where
  | unread (path : List InstanceId) (id : InstanceId) : Direct path id .unread
  | coerce {path : List InstanceId} {id target : InstanceId} {part : Phrase} (hnew : id ∉ path)
      (h : Direct (id :: path) target part) : Direct path id (.node (.coerce target) [part])
  | apply {path : List InstanceId} {id : InstanceId} {fn : FunId} {args : List InstanceId}
      {parts : List Phrase} (hnew : id ∉ path)
      (hparts : ∀ (i : Nat) (id' : InstanceId) (part : Phrase), args[i]? = some id' →
        parts[i]? = some part → Direct [] id' part) :
      Direct path id (.node (.apply fn args) parts)

variable {c : Concrete} {pick : Variants → List (List Sym)}

/-- A coercion reads of its argument what is read of it. -/
theorem Concrete.reads_coerce (target : InstanceId) (fields : List Nat) :
    c.reads (.coerce target) fields 0 = fields := by
  induction fields with
  | nil => rfl
  | cons field fields ih =>
    have hbody : c.body? (.coerce target) field = some [.sub 0 field] := rfl
    rw [Concrete.reads_cons hbody, ih]
    rfl

/-- The words of a coercion are those of what it coerces. -/
theorem Phrase.Yields.coerce {t : Phrase} {field : Nat} {ws : List Sym}
    (h : t.Yields c pick field ws) (target : InstanceId) :
    (Phrase.node (.coerce target) [t]).Yields c pick field ws :=
  ⟨_, _, _, rfl, rfl, .read rfl h⟩

/-- A phrase for an instance becomes a phrase for what can be reached from there. -/
theorem Concrete.Ascends.exists_phrase {path : List InstanceId} {id top : InstanceId}
    (h : c.Ascends path id top) (pick : Variants → List (List Sym)) {fields : List Nat}
    (hfields : fields ≠ []) {t : Phrase}
    (hmakes : c.Makes id fields t)
    (hdirect : ∀ path', (∀ x ∈ id :: path, x ∉ path') → t.Direct path' id) :
    ∃ t', c.Makes top fields t' ∧ t'.Direct [] top ∧ (∀ e, t.Denotes c e → t'.Denotes c e) ∧
      ∀ field ws, t.Yields c pick field ws → t'.Yields c pick field ws := by
  induction h generalizing t with
  | stay path id => exact ⟨t, hmakes, hdirect [] (by simp), fun _ h => h, fun _ _ h => h⟩
  | @up path id super top hcoerced hnew _ ih =>
    -- One coercion is put back here, and the rest of the way is put on top of it.
    have hnode : c.Makes super fields (.node (.coerce id) [t]) := by
      refine .node hcoerced hfields rfl fun i id' part hid' hpart => ?_
      obtain rfl : i = 0 := Nat.lt_one_iff.1 (List.getElem?_eq_some_iff.1 hpart).1
      cases hid'
      cases hpart
      rwa [Concrete.reads_coerce]
    obtain ⟨t', hmakes', hdirect', hdenotes, hyields⟩ := ih hnode fun path' hpath' => by
      refine .coerce (hpath' super List.mem_cons_self) (hdirect _ fun x hx hmem => ?_)
      rcases List.mem_cons.1 hmem with rfl | hmem
      · exact hnew hx
      · exact hpath' x (List.mem_cons_of_mem _ hx) hmem
    exact ⟨t', hmakes', hdirect', fun e he => hdenotes e (.coerce he),
      fun field ws h => hyields field ws (h.coerce id)⟩

/-! ## The phrase of a derivation -/

theorem mem_fieldsOf {arg field : Nat} {s : List Constituent} :
    field ∈ fieldsOf arg s ↔ .sub arg field ∈ s := by
  rw [fieldsOf, List.mem_filterMap]
  constructor
  · rintro ⟨x, hx, hfield⟩
    cases x with
    | sub a f =>
      simp only [Constituent.fieldOf?, Option.ite_none_right_eq_some, Option.some.injEq] at hfield
      obtain ⟨rfl, rfl⟩ := hfield
      exact hx
    | _ => cases hfield
  · exact fun h => ⟨_, h, by simp [Constituent.fieldOf?]⟩

/-- What is read of an argument is read by one of the sequences. -/
theorem Concrete.mem_reads {p : Production} {fields : List Nat} {arg g : Nat} :
    g ∈ c.reads p fields arg ↔
      ∃ field ∈ fields, ∃ body, c.body? p field = some body ∧ .sub arg g ∈ body := by
  rw [Concrete.reads, List.mem_flatMap]
  refine exists_congr fun field => and_congr_right fun _ => ?_
  rw [mem_fieldsOf]
  cases c.body? p field <;> simp

/-- What an instance takes over its productions from has all fields that it has itself. -/
theorem Concrete.WellFormed.fieldCount_of_reaches (hwf : c.WellFormed) {id top : InstanceId}
    (h : c.Reaches id top) {n field : Nat} (hn : c.fieldCount? top = some n) (hfield : field < n) :
    ∃ m, c.fieldCount? id = some m ∧ field < m := by
  induction h using Relation.ReflTransGen.head_induction_on with
  | refl => exact ⟨n, hn, hfield⟩
  | @head id super hcoerced _ ih =>
    obtain ⟨m, hm, hlt⟩ := ih
    obtain ⟨body, hbody, hsubs⟩ := hwf super _ hcoerced m hm field hlt
    -- A coercion reads the field of its only argument.
    cases hbody
    obtain ⟨id', m', hid', hm', hlt'⟩ := hsubs 0 field List.mem_cons_self
    cases hid'
    exact ⟨m', hm', hlt'⟩

/-- A sequence of words and of fields that can be spelled and worded is spelled and worded itself.
-/
theorem exists_spells (symbols : SymbolStore) {parts : List Phrase} {ds : List Derivation}
    {s : Sequence} (hplain : ∀ x ∈ s, x.arg? = none ∨ ∃ arg field, x = .sub arg field)
    (hsubs : ∀ arg field, .sub arg field ∈ s → ∃ part d ws, parts[arg]? = some part ∧
      ds[arg]? = some d ∧ part.Yields c (fun v => [v.base]) field ws ∧
      d.Worded (fun v => [v.base]) symbols c field (ws.map symbols.name)) :
    ∃ ws, c.Spells (fun v => [v.base]) parts s ws ∧
      Sequence.Worded (fun v => [v.base]) symbols
        (ds.map (Derivation.Worded (fun v => [v.base]) symbols c)) s (ws.map symbols.name) := by
  induction s with
  | nil => exact ⟨[], .nil parts, worded_nil⟩
  | cons x s ih =>
    obtain ⟨ws, hspells, hworded⟩ := ih (fun x hx => hplain x (List.mem_cons_of_mem _ hx))
      fun arg field h => hsubs arg field (List.mem_cons_of_mem _ h)
    cases x with
    | sub arg field =>
      obtain ⟨part, d, us, hpart, hd, hyields, hus⟩ := hsubs arg field List.mem_cons_self
      refine ⟨us ++ ws, (Concrete.Spells.read hpart hyields).append hspells, ?_⟩
      rw [List.map_append]
      exact worded_cons (Derivation.worded_arg_iff.2 ⟨d, hd, hus⟩) hworded
    | tokens ts =>
      refine ⟨ts ++ ws, .words (by simp [Constituent.formsBy]) hspells, ?_⟩
      rw [List.map_append]
      exact worded_cons (x := .tokens ts) rfl hworded
    | variants v =>
      refine ⟨v.base ++ ws, .words (by simp [Constituent.formsBy]) hspells, ?_⟩
      rw [List.map_append]
      exact worded_cons (x := .variants v) ⟨v.base, List.mem_singleton_self _, rfl⟩ hworded
    | lit arg field => simpa [Constituent.arg?] using hplain _ List.mem_cons_self
    | var arg index => simpa [Constituent.arg?] using hplain _ List.mem_cons_self

namespace Derivation

/-- A constituent that is made of words reads no literal and no variable. -/
theorem arg?_of_plain {args : List (Nat → Prop)} {x : Constituent} (h : x.Plain args) :
    x.arg? = none ∨ ∃ arg field, x = .sub arg field := by
  cases x with
  | sub arg field => exact .inr ⟨arg, field, rfl⟩
  | tokens ts => exact .inl rfl
  | variants v => exact .inl rfl
  | lit arg field => exact h.elim
  | var arg index => exact h.elim

/-- A derivation at which linearization meets nothing but words makes an instance. -/
theorem root?_of_plain {d : Derivation} {field : Nat} (h : d.Plain c field) :
    ∃ root, d.root? = some root := by
  cases d with
  | app id fn name args => exact ⟨id, rfl⟩
  | lit id value => exact ⟨id, rfl⟩
  | hole index => exact h.elim

section App

variable (hwf : c.WellFormed) {id : InstanceId} {fn : FunId} {name : Sym} {args : List InstanceId}
  {ds : List Derivation} (hprod : .apply fn args ∈ c.productionsOf id)
include hwf hprod

/-- What linearization meets at a field of an application: words, and fields that the arguments
have. -/
theorem exists_body_of_plain {field : Nat} (hplain : (app id fn name ds).Plain c field)
    (hcount : ∃ n, c.fieldCount? id = some n ∧ field < n) :
    ∃ body, c.body? (.apply fn args) field = some body ∧
      (∀ x ∈ body, Constituent.Plain (ds.map (Plain c)) x) ∧
      ∀ arg g, .sub arg g ∈ body →
        ∃ id n, args[arg]? = some id ∧ c.fieldCount? id = some n ∧ g < n := by
  obtain ⟨n, hn, hlt⟩ := hcount
  obtain ⟨body, hbody, hsubs⟩ := hwf id _ hprod n hn field hlt
  refine ⟨body, hbody, ?_, hsubs⟩
  rw [← plainAll_eq_map]
  exact hplain body hbody

/-- So are the fields that are read of an argument. -/
theorem plain_of_mem_reads {fields : List Nat}
    (hplain : ∀ field ∈ fields, (app id fn name ds).Plain c field)
    (hcount : ∀ field ∈ fields, ∃ n, c.fieldCount? id = some n ∧ field < n) {i g : Nat}
    (hg : g ∈ c.reads (.apply fn args) fields i) {d : Derivation} {arg : InstanceId}
    (hd : ds[i]? = some d) (harg : args[i]? = some arg) :
    d.Plain c g ∧ ∃ n, c.fieldCount? arg = some n ∧ g < n := by
  obtain ⟨field, hfield, body, hbody, hmem⟩ := Concrete.mem_reads.1 hg
  obtain ⟨body', hbody', hplain', hsubs⟩ :=
    exists_body_of_plain hwf hprod (hplain field hfield) (hcount field hfield)
  cases hbody.symm.trans hbody'
  obtain ⟨arg', n, harg', hn, hlt⟩ := hsubs i g hmem
  cases harg.symm.trans harg'
  exact ⟨hplain' _ hmem _ (by simp [hd]), n, hn, hlt⟩

end App

end Derivation

/-- A phrase retraces a derivation of an expression at some fields: it stands for what these show of
the expression, and its words in base forms are those of the derivation. -/
structure Phrase.Retraces (c : Concrete) (symbols : SymbolStore) (id : InstanceId)
    (fields : List Nat) (d : Derivation) (e : Expr) (t : Phrase) : Prop where
  makes : c.Makes id fields t
  denotes : t.Denotes c (d.shown c fields e)
  worded : ∀ field ∈ fields, ∃ ws, t.Yields c (fun v => [v.base]) field ws ∧
    d.Worded (fun v => [v.base]) symbols c field (ws.map symbols.name)

namespace Phrase.Retraces

variable {symbols : SymbolStore} {id : InstanceId} {fields : List Nat} {d : Derivation} {e : Expr}

theorem unread (c : Concrete) (symbols : SymbolStore) (id : InstanceId) (d : Derivation)
    (e : Expr) : Phrase.unread.Retraces c symbols id [] d e where
  makes := .unread id
  denotes := .unread
  worded := nofun

/-- Coercions put back change neither the expression nor the words. -/
theorem ascend {t : Phrase} (h : t.Retraces c symbols id fields d e) (hfields : fields ≠ [])
    (hdirect : ∀ path, id ∉ path → t.Direct path id) {top : InstanceId} (hup : c.Reaches id top) :
    ∃ t' : Phrase, t'.Retraces c symbols top fields d e ∧ t'.Direct [] top := by
  obtain ⟨t', hmakes, hdirect', hdenotes, hyields⟩ :=
    (Concrete.ascends_iff_reaches.2 hup).exists_phrase (fun v => [v.base]) hfields h.makes
      fun path hpath => hdirect path (hpath id List.mem_cons_self)
  refine ⟨t', ⟨hmakes, hdenotes _ h.denotes, fun field hfield => ?_⟩, hdirect'⟩
  obtain ⟨ws, hws, hworded⟩ := h.worded field hfield
  exact ⟨ws, hyields field ws hws, hworded⟩

/-- Phrases that retrace the arguments make up one that retraces the application. -/
theorem node (hwf : c.WellFormed) {fn : FunId} {f : ConcreteFunction} {args : List InstanceId}
    {ds : List Derivation} {es : List Expr} {parts : List Phrase}
    (hprod : .apply fn args ∈ c.productionsOf id) (hfn : c.function? fn = some f)
    (hfields : fields ≠ [])
    (hplain : ∀ field ∈ fields, (Derivation.app id fn f.name ds).Plain c field)
    (hcount : ∀ field ∈ fields, ∃ n, c.fieldCount? id = some n ∧ field < n)
    (hds : ds.length = args.length) (hes : es.length = args.length)
    (hlength : parts.length = args.length)
    (hparts : ∀ i arg d e (part : Phrase), args[i]? = some arg → ds[i]? = some d →
      es[i]? = some e → parts[i]? = some part →
      part.Retraces c symbols arg (c.reads (.apply fn args) fields i) d e) :
    (Phrase.node (.apply fn args) parts).Retraces c symbols id fields (.app id fn f.name ds)
      (.app f.name es) := by
  -- All four lists have something at each place of an argument.
  have hpart : ∀ i < args.length, ∃ arg d e part, args[i]? = some arg ∧ ds[i]? = some d ∧
      es[i]? = some e ∧ parts[i]? = some part ∧
      part.Retraces c symbols arg (c.reads (.apply fn args) fields i) d e := by
    intro i hi
    have harg := List.getElem?_eq_getElem hi
    have hd := List.getElem?_eq_getElem (hds ▸ hi : i < ds.length)
    have he := List.getElem?_eq_getElem (hes ▸ hi : i < es.length)
    have hpart := List.getElem?_eq_getElem (hlength ▸ hi : i < parts.length)
    exact ⟨_, _, _, _, harg, hd, he, hpart, hparts i _ _ _ _ harg hd he hpart⟩
  refine ⟨.node hprod hfields hlength fun i arg part harg hpart' => ?_, ?_, fun field hfield => ?_⟩
  · obtain ⟨arg', d, e, part', harg', -, -, hpart'', hretraces⟩ :=
      hpart i (List.getElem?_eq_some_iff.1 harg).1
    cases harg.symm.trans harg'
    cases hpart'.symm.trans hpart''
    exact hretraces.makes
  · rw [Derivation.shown, if_neg hfields]
    refine .apply hfn ?_ fun i part e' hpart' he' => ?_
    · rw [Derivation.length_visibleAll (hds.trans hes.symm), hes, hlength]
    · obtain ⟨arg, d, e, part', -, hd, he, hpart'', hretraces⟩ :=
        hpart i (hlength ▸ (List.getElem?_eq_some_iff.1 hpart').1)
      cases hpart'.symm.trans hpart''
      rw [Derivation.getElem?_visibleAll hd he] at he'
      cases he'
      exact hretraces.denotes
  · obtain ⟨body, hbody, hplain', hsubs⟩ :=
      Derivation.exists_body_of_plain hwf hprod (hplain field hfield) (hcount field hfield)
    have hread : ∀ arg g, .sub arg g ∈ body → ∃ part d ws, parts[arg]? = some part ∧
        ds[arg]? = some d ∧ part.Yields c (fun v => [v.base]) g ws ∧
        d.Worded (fun v => [v.base]) symbols c g (ws.map symbols.name) := by
      intro i g hmem
      obtain ⟨id, n, harg, -, -⟩ := hsubs i g hmem
      obtain ⟨arg, d, e, part, -, hd, -, hpart', hretraces⟩ :=
        hpart i (List.getElem?_eq_some_iff.1 harg).1
      obtain ⟨ws, hyields, hws⟩ :=
        hretraces.worded g (Concrete.mem_reads.2 ⟨field, hfield, body, hbody, hmem⟩)
      exact ⟨part, d, ws, hpart', hd, hyields, hws⟩
    obtain ⟨ws, hspells, hworded⟩ :=
      exists_spells symbols (fun x hx => Derivation.arg?_of_plain (hplain' x hx)) hread
    exact ⟨ws, ⟨_, parts, body, rfl, hbody, hspells⟩,
      Derivation.worded_app.2 ⟨body, hbody, hworded⟩⟩

end Phrase.Retraces

/-- **A derivation that meets nothing but words can be retraced** at the fields at which it does so,
by a phrase whose coercions go nowhere twice. -/
theorem Derivation.Expresses.exists_phrase {a : Abstract} (hwf : c.WellFormed)
    (symbols : SymbolStore) {d : Derivation} {e : Expr} (h : d.Expresses a c e) {id : InstanceId}
    (hroot : d.root? = some id) {fields : List Nat} (hfields : fields ≠ [])
    (hplain : ∀ field ∈ fields, d.Plain c field)
    (hcount : ∀ field ∈ fields, ∃ n, c.fieldCount? id = some n ∧ field < n) :
    ∃ t : Phrase, t.Retraces c symbols id fields d e ∧ ∀ path, id ∉ path → t.Direct path id := by
  induction d using Derivation.induction generalizing e id fields with
  | hole index => cases hroot
  | lit id value =>
    obtain ⟨field, hfield⟩ := List.exists_mem_of_ne_nil _ hfields
    exact (hplain field hfield).elim
  | app id' fn name ds ih =>
    cases hroot
    cases h with
    | @app _ _ _ _ es decl f args hdecl harity hargs hprod hfn hname hreach =>
    subst hname
    have hds : ds.length = args.length := hreach.length_eq
    have hes : es.length = args.length := hargs.length_eq.symm.trans hds
    -- an argument of which something is read is an application, for which there is a phrase
    have hpart : ∀ i < args.length, ∃ part : Phrase, ∀ arg d e, args[i]? = some arg →
        ds[i]? = some d → es[i]? = some e →
        part.Retraces c symbols arg (c.reads (.apply fn args) fields i) d e ∧
          part.Direct [] arg := by
      intro i hi
      have harg := List.getElem?_eq_getElem hi
      have hd := List.getElem?_eq_getElem (hds ▸ hi : i < ds.length)
      have he := List.getElem?_eq_getElem (hes ▸ hi : i < es.length)
      have hexists : ∃ part : Phrase,
          part.Retraces c symbols args[i] (c.reads (.apply fn args) fields i) ds[i] es[i] ∧
            part.Direct [] args[i] := by
        by_cases hreads : c.reads (.apply fn args) fields i = []
        · exact ⟨.unread, hreads ▸ .unread .., .unread [] _⟩
        · have hread := fun g (hg : g ∈ c.reads (.apply fn args) fields i) =>
            plain_of_mem_reads hwf hprod hplain hcount hg hd harg
          obtain ⟨g₀, hg₀⟩ := List.exists_mem_of_ne_nil _ hreads
          obtain ⟨root, hroot⟩ := root?_of_plain (hread g₀ hg₀).1
          have hup := rel_of_forall₂ hreach hd harg root hroot
          obtain ⟨t, hretraces, hdirect⟩ := ih _ (List.mem_of_getElem? hd)
            (rel_of_forall₂ hargs hd he) hroot hreads (fun g hg => (hread g hg).1)
            fun g hg => by
              obtain ⟨-, n, hn, hlt⟩ := hread g hg
              exact hwf.fieldCount_of_reaches hup hn hlt
          exact hretraces.ascend hreads hdirect hup
      obtain ⟨part, hpart⟩ := hexists
      refine ⟨part, fun arg d e harg' hd' he' => ?_⟩
      cases harg.symm.trans harg'
      cases hd.symm.trans hd'
      cases he.symm.trans he'
      exact hpart
    obtain ⟨parts, hlength, hparts⟩ := exists_list_of_lt hpart
    refine ⟨_, .node hwf hprod hfn hfields hplain hcount hds hes hlength
      fun i arg d e part harg hd he hpart => (hparts i part hpart arg d e harg hd he).1,
      fun path hpath => .apply hpath fun i arg part harg hpart => ?_⟩
    have hi := (List.getElem?_eq_some_iff.1 harg).1
    exact (hparts i part hpart arg _ _ harg (List.getElem?_eq_getElem (hds ▸ hi))
      (List.getElem?_eq_getElem (hes ▸ hi))).2

end Polyglot
