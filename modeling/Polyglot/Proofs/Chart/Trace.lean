import Polyglot.Proofs.Chart.Facts
import Polyglot.Proofs.Grammar.Phrase

/-!
# Where chart categories and their productions come from

A chart category refines another category by one field, which was read between two positions of the
input. So behind every category there is a chain of fields that have been read of one and the same
phrase, down to an instance of the grammar. A production of a chart category was got from one of the
category it refines by going through the sequence of the field that was read.

- `Chain`: the instance that a category comes from, and the fields read of it.
- `Traced`: how a part of a sequence turns one production into another.
- `Traced.spells`: phrases that fit the arguments afterwards fitted them before, and make up the
  words in between.
-/

namespace Polyglot

/-! ## Stretches of the input -/

/-- The words between two positions of an input. -/
def between (v : Nat → Sym) (start stop : Nat) : List Sym :=
  (List.range' start (stop - start)).map v

@[simp] theorem between_self (v : Nat → Sym) (k : Nat) : between v k k = [] := by simp [between]

theorem between_append {v : Nat → Sym} {i j k : Nat} (hij : i ≤ j) (hjk : j ≤ k) :
    between v i j ++ between v j k = between v i k := by
  have hj : j = i + (j - i) := by omega
  have hlen : k - i = (j - i) + (k - j) := by omega
  rw [between, between, between, hlen, ← List.range'_append_1, List.map_append, ← hj]

theorem between_succ {v : Nat → Sym} {i k : Nat} (h : i ≤ k) :
    between v i (k + 1) = between v i k ++ [v k] := by
  rw [← between_append h (Nat.le_succ k)]
  simp [between]

theorem length_between (v : Nat → Sym) (start stop : Nat) :
    (between v start stop).length = stop - start := by simp [between]

/-! ## Productions of a chart -/

namespace ChartProduction

/-- The concrete function of a production; a coercion has none. -/
def head : ChartProduction → Option FunId
  | .apply fn _ => some fn
  | .coerce _ => none

@[simp] theorem head_ofGrammar (p : Production) : (ofGrammar p).head = p.head := by cases p <;> rfl

@[simp] theorem args_ofGrammar (p : Production) :
    (ofGrammar p).args = p.args.map CatRef.grammar := by
  cases p <;> rfl

@[simp] theorem head_bind (q : ChartProduction) (arg : Nat) (X : CatRef) :
    (q.bind arg X).head = q.head := by
  cases q <;> rfl

theorem args_bind {q : ChartProduction} {arg : Nat} {X : CatRef} (h : q.args[arg]? = some X)
    (Y : CatRef) : (q.bind arg Y).args = q.args.set arg Y := by
  cases q with
  | apply fn args => rfl
  | coerce cat =>
    have harg : arg = 0 := by
      have := (List.getElem?_eq_some_iff.1 h).1
      simpa [args] using this
    subst harg
    rfl

end ChartProduction

/-- A stretch of the input that was read as a field. -/
structure Span where
  field : Nat
  start : Nat
  stop : Nat
  deriving DecidableEq

/-- The instance that a category comes from, and what has been read of it, in order. -/
inductive Chain (F : Fact → Prop) : CatRef → InstanceId → List Span → Prop where
  | grammar (id : InstanceId) : Chain F (.grammar id) id []
  | chart {done : ChartCatId} {S : ItemSetRef} {X : CatRef} {f n : Nat} {id : InstanceId}
      {L : List Span} (hdone : F (.closes done S X f n)) (hchain : Chain F X id L) :
      Chain F (.chart done) id (L ++ [⟨f, S.step, done.step⟩])

/-- How a part of a sequence, read from a position on, turns a production into another one: words
are those of the input, and a field of an argument was completed from here on. -/
inductive Traced (v : Nat → Sym) (F : Fact → Prop) (q₀ : ChartProduction) (start : Nat) :
    List Constituent → ChartProduction → Nat → Prop where
  | start : Traced v F q₀ start [] q₀ start
  | words {s : List Constituent} {q : ChartProduction} {k : Nat} {x : Constituent} {ts : List Sym}
      (h : Traced v F q₀ start s q k) (hform : ts ∈ x.forms)
      (hinput : between v k (k + ts.length) = ts) :
      Traced v F q₀ start (s ++ [x]) q (k + ts.length)
  | sub {s : List Constituent} {q : ChartProduction} {arg field n : Nat} {X : CatRef}
      {done : ChartCatId} {S : ItemSetRef} (h : Traced v F q₀ start s q S.step)
      (harg : q.args[arg]? = some X) (hdone : F (.closes done S X field n))
      (hle : S.step ≤ done.step) :
      Traced v F q₀ start (s ++ [.sub arg field]) (q.bind arg (.chart done)) done.step

variable {c : Concrete} {v : Nat → Sym} {F F' : Fact → Prop}

theorem Chain.mono (hF : ∀ φ, F φ → F' φ) {X : CatRef} {id : InstanceId} {L : List Span}
    (h : Chain F X id L) : Chain F' X id L := by
  induction h with
  | grammar id => exact .grammar id
  | chart hdone _ ih => exact .chart (hF _ hdone) ih

/-- What a category comes from is determined. -/
theorem Chain.unique (hF : Functional F) {X : CatRef} {id id' : InstanceId} {L L' : List Span}
    (h : Chain F X id L) (h' : Chain F X id' L') : id = id' ∧ L = L' := by
  induction h generalizing id' L' with
  | grammar id =>
    cases h'
    exact ⟨rfl, rfl⟩
  | chart hdone _ ih =>
    cases h' with
    | chart hdone' hchain' =>
      obtain ⟨rfl, rfl, rfl, -⟩ := hF.closes _ _ _ _ _ _ _ _ _ hdone hdone'
      obtain ⟨rfl, rfl⟩ := ih hchain'
      exact ⟨rfl, rfl⟩

theorem Traced.mono (hF : ∀ φ, F φ → F' φ) {q₀ q : ChartProduction} {j k : Nat}
    {s : List Constituent} (h : Traced v F q₀ j s q k) : Traced v F' q₀ j s q k := by
  induction h with
  | start => exact .start
  | words _ hform hinput ih => exact .words ih hform hinput
  | sub _ harg hdone hle ih => exact .sub ih harg (hF _ hdone) hle

theorem Offers.mono (hF : ∀ φ, F φ → F' φ) {X : CatRef} {q : ChartProduction}
    (h : Offers c F X q) : Offers c F' X q := by
  cases X with
  | grammar id => exact h
  | chart done => exact hF _ h

section Traced

variable {q₀ q : ChartProduction} {j k : Nat} {s : List Constituent}

theorem Traced.le (h : Traced v F q₀ j s q k) : j ≤ k := by
  induction h with
  | start => exact Nat.le_refl j
  | words _ _ _ ih => omega
  | sub _ _ _ hle ih => omega

theorem Traced.head_eq (h : Traced v F q₀ j s q k) : q.head = q₀.head := by
  induction h with
  | start => rfl
  | words _ _ _ ih => exact ih
  | sub _ _ _ _ ih => rw [ChartProduction.head_bind, ih]

theorem Traced.length_args (h : Traced v F q₀ j s q k) : q.args.length = q₀.args.length := by
  induction h with
  | start => rfl
  | words _ _ _ ih => exact ih
  | sub _ harg _ _ ih => rw [ChartProduction.args_bind harg, List.length_set, ih]

/-- The arguments come from the same instances as before, and stretches are added to what was read
of them before: those of the fields that a part of a sequence reads, in the part of the input that
it was read from. -/
theorem Traced.spans (h : Traced v F q₀ j s q k) {i : Nat} {X₀ : CatRef} {id : InstanceId}
    {L₀ : List Span} (harg₀ : q₀.args[i]? = some X₀) (hchain₀ : Chain F X₀ id L₀) :
    ∃ X L, q.args[i]? = some X ∧ Chain F X id (L₀ ++ L) ∧ L.map Span.field = fieldsOf i s ∧
      ∀ r ∈ L, j ≤ r.start ∧ r.stop ≤ k := by
  induction h with
  | start => exact ⟨X₀, [], harg₀, by rwa [List.append_nil], rfl, nofun⟩
  | @words s q k x ts _ hform _ ih =>
    obtain ⟨X, L, harg, hchain, hfields, hwithin⟩ := ih
    refine ⟨X, L, harg, hchain, ?_, fun r hr => ?_⟩
    · rw [fieldsOf_append, fieldsOf_words hform, fieldsOf_nil, List.append_nil, hfields]
    · obtain ⟨hstart, hstop⟩ := hwithin r hr
      exact ⟨hstart, by omega⟩
  | @sub s q arg field n Y done S h harg' hdone hle ih =>
    obtain ⟨X, L, harg, hchain, hfields, hwithin⟩ := ih
    rw [ChartProduction.args_bind harg', fieldsOf_append]
    by_cases hi : arg = i
    · subst hi
      cases harg.symm.trans harg'
      refine ⟨.chart done, L ++ [⟨field, S.step, done.step⟩], ?_, ?_, ?_, fun r hr => ?_⟩
      · rw [List.getElem?_set_self]
        exact (List.getElem?_eq_some_iff.1 harg).1
      · rw [← List.append_assoc]
        exact .chart hdone hchain
      · rw [List.map_append, hfields, fieldsOf_sub, fieldsOf_nil]
        rfl
      · rcases List.mem_append.1 hr with hr | hr
        · obtain ⟨hstart, hstop⟩ := hwithin r hr
          exact ⟨hstart, Nat.le_trans hstop hle⟩
        · obtain rfl := List.mem_singleton.1 hr
          exact ⟨h.le, Nat.le_refl _⟩
    · refine ⟨X, L, ?_, hchain, ?_, fun r hr => ?_⟩
      · rwa [List.getElem?_set_ne hi]
      · rw [fieldsOf_sub_of_ne hi, fieldsOf_nil, List.append_nil, hfields]
      · obtain ⟨hstart, hstop⟩ := hwithin r hr
        exact ⟨hstart, Nat.le_trans hstop hle⟩

/-- What is read of the arguments in a part of a sequence is added to what was read of them
before. -/
theorem Traced.chain (h : Traced v F q₀ j s q k) {i : Nat} {X₀ : CatRef} {id : InstanceId}
    {L₀ : List Span} (harg₀ : q₀.args[i]? = some X₀) (hchain₀ : Chain F X₀ id L₀) :
    ∃ X L, q.args[i]? = some X ∧ Chain F X id L ∧
      L.map Span.field = L₀.map Span.field ++ fieldsOf i s := by
  obtain ⟨X, L, harg, hchain, hfields, -⟩ := h.spans harg₀ hchain₀
  exact ⟨X, L₀ ++ L, harg, hchain, by rw [List.map_append, hfields]⟩

end Traced

/-! ## Phrases that fit -/

/-- Phrases fit the arguments of a production: they have the words that were read of them. -/
def Fits (c : Concrete) (v : Nat → Sym) (F : Fact → Prop) (q : ChartProduction)
    (parts : List Phrase) : Prop :=
  ∀ (i : Nat) (X : CatRef) (id : InstanceId) (L : List Span), q.args[i]? = some X →
    Chain F X id L → ∀ s ∈ L, ∃ part : Phrase, parts[i]? = some part ∧
      part.Yields c Variants.forms s.field (between v s.start s.stop)

/-- Phrases that fit after a part of a sequence fitted before, and that part has the words of the
stretch that was read. -/
theorem Traced.spells {q₀ q : ChartProduction} {j k : Nat} {s : List Constituent}
    (h : Traced v F q₀ j s q k) {parts : List Phrase}
    (hchains : ∀ X ∈ q₀.args, ∃ id L, Chain F X id L) (hfits : Fits c v F q parts) :
    Fits c v F q₀ parts ∧ c.Spells Variants.forms parts s (between v j k) := by
  induction h with
  | start => exact ⟨hfits, by simpa using .nil parts⟩
  | @words s q k x ts h hform hinput ih =>
    obtain ⟨hfits₀, hspells⟩ := ih hfits
    refine ⟨hfits₀, ?_⟩
    rw [← between_append h.le (Nat.le_add_right k ts.length), hinput, ← List.append_nil ts]
    exact hspells.append (.words hform (.nil parts))
  | @sub s q arg field n X done S h harg hdone hle ih =>
    -- the argument was read on, so a phrase that fits it now fitted it before
    have hlt := (List.getElem?_eq_some_iff.1 harg).1
    have hself : (q.bind arg (.chart done)).args[arg]? = some (.chart done) := by
      rw [ChartProduction.args_bind harg, List.getElem?_set_self hlt]
    have hbefore : Fits c v F q parts := by
      intro i Y id L hY hchain span hspan
      by_cases hi : arg = i
      · subst hi
        cases harg.symm.trans hY
        exact hfits _ _ id _ hself (.chart hdone hchain) span (List.mem_append_left _ hspan)
      · refine hfits i Y id L ?_ hchain span hspan
        rwa [ChartProduction.args_bind harg, List.getElem?_set_ne hi]
    obtain ⟨hfits₀, hspells⟩ := ih hbefore
    refine ⟨hfits₀, ?_⟩
    have hlt₀ : arg < q₀.args.length := h.length_args ▸ hlt
    obtain ⟨id, L₀, hchain₀⟩ := hchains _ (List.getElem_mem hlt₀)
    obtain ⟨Y, L, hY, hchain, -⟩ := h.chain (List.getElem?_eq_getElem hlt₀) hchain₀
    cases harg.symm.trans hY
    obtain ⟨part, hpart, hyields⟩ := hfits _ _ id _ hself (.chart hdone hchain)
      ⟨field, S.step, done.step⟩ (List.mem_append_right _ List.mem_cons_self)
    rw [← between_append h.le hle]
    exact hspells.append (.read hpart hyields)

end Polyglot
