import Polyglot.Proofs.Grammar.WellFormed

/-!
# Phrases

A phrase is a tree of productions. It says how an instance is made, as far as one needs to know it
for some of its fields: an argument of which these fields read nothing is left open. All fields of
an argument are read off the same phrase, which is what holds the separate pieces of it together.

- `Concrete.Makes`: a phrase makes an instance, for some of its fields.
- `Phrase.Yields`: the words of a field of a phrase, with some choice of forms for what has several;
  `Variants.forms` allows any of them.
-/

namespace Polyglot

/-- A tree of productions, open where nothing is read. -/
inductive Phrase where
  | unread
  | node (production : Production) (parts : List Phrase)

namespace Constituent

/-- The forms of a constituent that consists of words, given those of what has several. -/
def formsBy (pick : Variants → List (List Sym)) : Constituent → List (List Sym)
  | .tokens ts => [ts]
  | .variants v => pick v
  | .sub .. | .lit .. | .var .. => []

/-- All forms of a constituent that consists of words. -/
abbrev forms (x : Constituent) : List (List Sym) := x.formsBy Variants.forms

theorem formsBy_subset {pick pick' : Variants → List (List Sym)} (hpick : ∀ v, pick v ⊆ pick' v)
    (x : Constituent) : x.formsBy pick ⊆ x.formsBy pick' := by
  cases x with
  | variants v => exact hpick v
  | _ => exact fun _ h => h

/-- The field that is read of an argument. -/
def fieldOf? (arg : Nat) : Constituent → Option Nat
  | .sub a field => if a = arg then some field else none
  | .lit .. | .var .. | .tokens _ | .variants _ => none

end Constituent

/-- The fields that a sequence reads of an argument, in order. -/
def fieldsOf (arg : Nat) (s : List Constituent) : List Nat := s.filterMap (Constituent.fieldOf? arg)

@[simp] theorem fieldsOf_nil (arg : Nat) : fieldsOf arg [] = [] := rfl

theorem fieldsOf_append (arg : Nat) (s s' : List Constituent) :
    fieldsOf arg (s ++ s') = fieldsOf arg s ++ fieldsOf arg s' := List.filterMap_append

theorem fieldsOf_sub (arg field : Nat) (s : List Constituent) :
    fieldsOf arg (.sub arg field :: s) = field :: fieldsOf arg s := by
  simp [fieldsOf, Constituent.fieldOf?]

theorem fieldsOf_sub_of_ne {arg a : Nat} (h : a ≠ arg) (field : Nat) (s : List Constituent) :
    fieldsOf arg (.sub a field :: s) = fieldsOf arg s := by
  simp [fieldsOf, Constituent.fieldOf?, h]

/-- Words read nothing. -/
theorem fieldsOf_words {x : Constituent} {ts : List Sym} (h : ts ∈ x.forms) (arg : Nat)
    (s : List Constituent) : fieldsOf arg (x :: s) = fieldsOf arg s := by
  cases x with
  | sub a field => simp [Constituent.formsBy] at h
  | lit a field => simp [Constituent.formsBy] at h
  | var a index => simp [Constituent.formsBy] at h
  | tokens tokens => rfl
  | variants v => rfl

namespace Concrete

variable (c : Concrete)

/-- The fields of an argument that a production reads for some of its own fields. -/
def reads (p : Production) (fields : List Nat) (arg : Nat) : List Nat :=
  fields.flatMap fun field => fieldsOf arg ((c.body? p field).getD [])

@[simp] theorem reads_nil (p : Production) (arg : Nat) : c.reads p [] arg = [] := rfl

theorem reads_append (p : Production) (fields fields' : List Nat) (arg : Nat) :
    c.reads p (fields ++ fields') arg = c.reads p fields arg ++ c.reads p fields' arg :=
  List.flatMap_append

variable {c} in
theorem reads_cons {p : Production} {field : Nat} {body : Sequence}
    (h : c.body? p field = some body) (fields : List Nat) (arg : Nat) :
    c.reads p (field :: fields) arg = fieldsOf arg body ++ c.reads p fields arg := by
  simp [reads, h]

/-- A phrase makes an instance, for some of its fields. -/
inductive Makes : InstanceId → List Nat → Phrase → Prop where
  | unread (id : InstanceId) : Makes id [] .unread
  | node {id : InstanceId} {fields : List Nat} {p : Production} {parts : List Phrase}
      (hp : p ∈ c.productionsOf id) (hfields : fields ≠ [])
      (hlength : parts.length = p.args.length)
      (hparts : ∀ (i : Nat) (id' : InstanceId) (part : Phrase), p.args[i]? = some id' →
        parts[i]? = some part → Makes id' (c.reads p fields i) part) :
      Makes id fields (.node p parts)

variable {c} in
/-- Where nothing is read a phrase is open, and only there. -/
theorem Makes.eq_unread_iff {id : InstanceId} {fields : List Nat} {t : Phrase}
    (h : c.Makes id fields t) : t = .unread ↔ fields = [] := by
  cases h with
  | unread => simp
  | node _ hfields => simp [hfields]

/-- The words of a sequence over phrases for the arguments. For literals and variables there are
none, not even no words. -/
inductive Spells (pick : Variants → List (List Sym)) :
    List Phrase → List Constituent → List Sym → Prop where
  | nil (parts : List Phrase) : Spells pick parts [] []
  | words {parts : List Phrase} {x : Constituent} {rest : List Constituent} {ts ws : List Sym}
      (hform : ts ∈ x.formsBy pick) (hrest : Spells pick parts rest ws) :
      Spells pick parts (x :: rest) (ts ++ ws)
  | sub {parts ps : List Phrase} {arg field : Nat} {rest body : List Constituent} {p : Production}
      {ts ws : List Sym} (hpart : parts[arg]? = some (.node p ps))
      (hbody : c.body? p field = some body) (hread : Spells pick ps body ts)
      (hrest : Spells pick parts rest ws) : Spells pick parts (.sub arg field :: rest) (ts ++ ws)

variable {c} in
theorem Spells.append {pick : Variants → List (List Sym)} {parts : List Phrase}
    {s s' : List Constituent} {ws ws' : List Sym} (h : c.Spells pick parts s ws)
    (h' : c.Spells pick parts s' ws') : c.Spells pick parts (s ++ s') (ws ++ ws') := by
  induction h with
  | nil => exact h'
  | words hform _ ih =>
    rw [List.cons_append, List.append_assoc]
    exact .words hform (ih h')
  | sub hpart hbody hread _ _ ih =>
    rw [List.cons_append, List.append_assoc]
    exact .sub hpart hbody hread (ih h')

variable {c} in
/-- What is spelled with some forms is spelled with more of them. -/
theorem Spells.mono {pick pick' : Variants → List (List Sym)} (hpick : ∀ v, pick v ⊆ pick' v)
    {parts : List Phrase} {s : List Constituent} {ws : List Sym} (h : c.Spells pick parts s ws) :
    c.Spells pick' parts s ws := by
  induction h with
  | nil parts => exact .nil parts
  | words hform _ ih => exact .words (Constituent.formsBy_subset hpick _ hform) ih
  | sub hpart hbody _ _ ihread ih => exact .sub hpart hbody ihread ih

end Concrete

/-- The words of a field of a phrase. -/
def Phrase.Yields (c : Concrete) (pick : Variants → List (List Sym)) (t : Phrase) (field : Nat)
    (ws : List Sym) : Prop :=
  ∃ p parts body, t = .node p parts ∧ c.body? p field = some body ∧ c.Spells pick parts body ws

theorem Phrase.Yields.mono {c : Concrete} {pick pick' : Variants → List (List Sym)}
    (hpick : ∀ v, pick v ⊆ pick' v) {t : Phrase} {field : Nat} {ws : List Sym}
    (h : t.Yields c pick field ws) : t.Yields c pick' field ws := by
  obtain ⟨p, parts, body, ht, hbody, hspells⟩ := h
  exact ⟨p, parts, body, ht, hbody, hspells.mono hpick⟩

/-- A constituent that reads a field of an argument has the words of that field. -/
theorem Concrete.Spells.read {c : Concrete} {pick : Variants → List (List Sym)}
    {parts : List Phrase} {arg field : Nat} {part : Phrase} {ws : List Sym}
    (hpart : parts[arg]? = some part) (h : part.Yields c pick field ws) :
    c.Spells pick parts [.sub arg field] ws := by
  obtain ⟨p, ps, body, rfl, hbody, hread⟩ := h
  rw [← List.append_nil ws]
  exact .sub hpart hbody hread (.nil parts)

end Polyglot
