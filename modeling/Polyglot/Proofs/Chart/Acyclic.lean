import Polyglot.Proofs.Chart.Enumeration
import Polyglot.Proofs.Generation.Phrasing

/-!
# Phrases in which no category comes up again

The enumeration of readings gives up where a category comes up below itself. Where every sequence
has some word of its own in base forms, this takes nothing away that was followed with base forms:
below an application less is read than at it, and between two applications no instance comes twice.

- `Phrase.Weighs`: how many words some fields of a phrase have in base forms.
- `Weighs.part`: an argument has no more words than what it is an argument of, and fewer if
  there is a word next to it.
- `Covers.unfoldsOff`: such a phrase is not given up.
-/

namespace Polyglot

/-- A constituent that has a word of its own in its base form. -/
def Constituent.Audible : Constituent → Prop
  | .tokens ts => ts ≠ []
  | .variants v => v.base ≠ []
  | .sub .. | .lit .. | .var .. => False

variable {c : Concrete}

/-! ## Words in base forms -/

/-- A constituent has one base form at most. -/
theorem Constituent.eq_of_mem_base {x : Constituent} {ts ts' : List Sym}
    (h : ts ∈ x.formsBy fun v => [v.base]) (h' : ts' ∈ x.formsBy fun v => [v.base]) : ts = ts' := by
  cases x <;> simp_all [formsBy]

theorem Constituent.Audible.ne_nil {x : Constituent} (hx : x.Audible) {ts : List Sym}
    (h : ts ∈ x.formsBy fun v => [v.base]) : ts ≠ [] := by
  cases x <;> simp_all [formsBy, Audible]

/-- In base forms a sequence is spelled in one way at most. -/
theorem Concrete.Spells.unique {parts : List Phrase} {s : List Constituent} {ws ws' : List Sym}
    (h : c.Spells (fun v => [v.base]) parts s ws) (h' : c.Spells (fun v => [v.base]) parts s ws') :
    ws = ws' := by
  induction h generalizing ws' with
  | nil parts =>
    cases h'
    rfl
  | @words parts x s ts ws hform _ ih =>
    cases h' with
    | words hform' hrest' => rw [Constituent.eq_of_mem_base hform hform', ih hrest']
    | sub => simp [Constituent.formsBy] at hform
  | @sub parts ps arg field s body p ts ws hpart hbody _ _ ihread ihrest =>
    cases h' with
    | words hform' => simp [Constituent.formsBy] at hform'
    | sub hpart' hbody' hread' hrest' =>
      cases hpart.symm.trans hpart'
      cases hbody.symm.trans hbody'
      rw [ihread hread', ihrest hrest']

theorem Phrase.Yields.unique {t : Phrase} {field : Nat} {ws ws' : List Sym}
    (h : t.Yields c (fun v => [v.base]) field ws) (h' : t.Yields c (fun v => [v.base]) field ws') :
    ws = ws' := by
  obtain ⟨p, parts, body, rfl, hbody, hspells⟩ := h
  obtain ⟨p', parts', body', heq, hbody', hspells'⟩ := h'
  cases heq
  cases hbody.symm.trans hbody'
  exact hspells.unique hspells'

/-- How many words some fields of a phrase have in base forms, taken together. -/
inductive Phrase.Weighs (c : Concrete) (t : Phrase) : List Nat → Nat → Prop where
  | nil : t.Weighs c [] 0
  | cons {field : Nat} {ws : List Sym} {fields : List Nat} {n : Nat}
      (h : t.Yields c (fun v => [v.base]) field ws) (hrest : t.Weighs c fields n) :
      t.Weighs c (field :: fields) (ws.length + n)

namespace Phrase.Weighs

variable {t : Phrase} {fields fields' : List Nat} {m n : Nat}

theorem append (h : t.Weighs c fields n) (h' : t.Weighs c fields' m) :
    t.Weighs c (fields ++ fields') (n + m) := by
  induction h with
  | nil => rwa [List.nil_append, Nat.zero_add]
  | cons hyields _ ih =>
    rw [List.cons_append, Nat.add_assoc]
    exact .cons hyields ih

theorem unique (h : t.Weighs c fields n) (h' : t.Weighs c fields m) : n = m := by
  induction h generalizing m with
  | nil =>
    cases h'
    rfl
  | cons hyields _ ih =>
    cases h' with
    | cons hyields' hrest' => rw [hyields.unique hyields', ih hrest']

end Phrase.Weighs

/-- What a sequence reads of an argument has no more words than the sequence, and fewer if the
sequence has a word of its own. -/
theorem Concrete.Spells.weighs {parts : List Phrase} {s : List Constituent} {ws : List Sym}
    (h : c.Spells (fun v => [v.base]) parts s ws) {i : Nat} {part : Phrase}
    (hpart : parts[i]? = some part) :
    ∃ m, part.Weighs c (fieldsOf i s) m ∧ m ≤ ws.length ∧
      ((∃ x ∈ s, x.Audible) → m < ws.length) := by
  induction h with
  | nil => exact ⟨0, .nil, Nat.le_refl 0, by simp⟩
  | @words parts x s ts ws hform _ ih =>
    obtain ⟨m, hm, hle, hlt⟩ := ih hpart
    have hform' : ts ∈ x.forms :=
      Constituent.formsBy_subset (fun v => by simp [Variants.forms]) x hform
    rw [fieldsOf_words hform', List.length_append]
    refine ⟨m, hm, by omega, ?_⟩
    rintro ⟨y, hy, haudible⟩
    rcases List.mem_cons.1 hy with rfl | hy
    · have := List.length_pos_iff.2 (haudible.ne_nil hform)
      omega
    · have := hlt ⟨y, hy, haudible⟩
      omega
  | @sub parts ps arg field s body p ts ws hpart' hbody hread _ _ ih =>
    obtain ⟨m, hm, hle, hlt⟩ := ih hpart
    have hlt' : (∃ x ∈ Constituent.sub arg field :: s, x.Audible) → m < ws.length := by
      rintro ⟨y, hy, haudible⟩
      rcases List.mem_cons.1 hy with rfl | hy
      · exact haudible.elim
      · exact hlt ⟨y, hy, haudible⟩
    rw [List.length_append]
    by_cases harg : arg = i
    · subst harg
      cases hpart.symm.trans hpart'
      rw [fieldsOf_sub]
      refine ⟨ts.length + m, .cons ⟨p, ps, body, rfl, hbody, hread⟩ hm, by omega, fun h => ?_⟩
      have := hlt' h
      omega
    · rw [fieldsOf_sub_of_ne harg]
      refine ⟨m, hm, by omega, fun h => ?_⟩
      have := hlt' h
      omega

/-- What some fields read of an argument has no more words than these fields, and fewer if each of
their sequences has a word of its own. -/
theorem Phrase.Weighs.part {p : Production} {parts : List Phrase} {fields : List Nat} {n : Nat}
    (h : (Phrase.node p parts).Weighs c fields n) {i : Nat} {part : Phrase}
    (hpart : parts[i]? = some part) :
    ∃ m, part.Weighs c (c.reads p fields i) m ∧ m ≤ n ∧
      ((∀ field body, c.body? p field = some body → ∃ x ∈ body, x.Audible) → fields ≠ [] →
        m < n) := by
  induction h with
  | nil => exact ⟨0, .nil, Nat.le_refl 0, fun _ h => absurd rfl h⟩
  | cons hyields _ ih =>
    obtain ⟨p', parts', body, heq, hbody, hspells⟩ := hyields
    cases heq
    obtain ⟨m₁, hm₁, hle₁, hlt₁⟩ := hspells.weighs hpart
    obtain ⟨m₂, hm₂, hle₂, -⟩ := ih
    rw [Concrete.reads_cons hbody]
    refine ⟨m₁ + m₂, hm₁.append hm₂, by omega, fun haudible _ => ?_⟩
    have := hlt₁ (haudible _ body hbody)
    omega

/-! ## What was read of a category -/

/-- How many tokens were read of a category, over all of its fields that were read. -/
def total (L : List Span) : Nat := (L.map fun s => s.stop - s.start).sum

/-- That is what the phrase weighs that was followed. -/
theorem Fills.weighs {t : Phrase} {L : List Span} (h : Fills c (fun v => [v.base]) t L) :
    t.Weighs c (L.map Span.field) (total L) := by
  induction L with
  | nil => exact .nil
  | cons s L ih =>
    obtain ⟨ts, hyields, hstop⟩ := h s List.mem_cons_self
    have hlength : s.stop - s.start = ts.length := by omega
    have hrest := ih fun s' hs' => h s' (List.mem_cons_of_mem _ hs')
    rw [List.map_cons, total, List.map_cons, List.sum_cons, hlength]
    exact .cons hyields hrest

variable {v : Nat → Sym} {ids : List InstanceId} {goal : Nat} {F : Fact → Prop}

/-- The categories above a phrase that has been at some instances since the last application: each
has had more read of it, or as much and then it is of one of these instances. -/
def Above (F : Fact → Prop) (been : List InstanceId) (L : List Span) (path : List ChartCatId) :
    Prop :=
  ∀ C ∈ path, ∃ id' L', Chain F (.chart C) id' L' ∧
    (total L < total L' ∨ total L ≤ total L' ∧ id' ∈ been)

/-- A category of an instance that is new since the last application is not above itself. -/
theorem Above.not_mem (hF : Functional F) {been : List InstanceId} {C : ChartCatId}
    {id : InstanceId} {L : List Span} {path : List ChartCatId} (h : Above F been L path)
    (hchain : Chain F (.chart C) id L) (hnew : id ∉ been) : C ∉ path := by
  intro hmem
  obtain ⟨id', L', hchain', hless⟩ := h C hmem
  obtain ⟨rfl, rfl⟩ := hchain.unique hF hchain'
  rcases hless with hlt | ⟨-, hbeen⟩
  · exact Nat.lt_irrefl _ hlt
  · exact hnew hbeen

/-- Below a category of which more was read, or as much and then its instance is kept in mind, the
categories above are still above. -/
theorem Above.cons {been been' : List InstanceId} {C : ChartCatId} {id : InstanceId}
    {L L' : List Span} {path : List ChartCatId} (h : Above F been L path)
    (hchain : Chain F (.chart C) id L)
    (hless : total L' < total L ∨ total L' ≤ total L ∧ been' = id :: been) :
    Above F been' L' (C :: path) := by
  intro C' hC'
  rcases List.mem_cons.1 hC' with rfl | hC'
  · refine ⟨id, L, hchain, hless.imp_right fun ⟨hle, heq⟩ => ⟨hle, ?_⟩⟩
    rw [heq]
    exact List.mem_cons_self
  · obtain ⟨id', L'', hchain', habove⟩ := h C' hC'
    refine ⟨id', L'', hchain', ?_⟩
    rcases habove with habove | ⟨habove, hmem⟩
    · exact .inl (by omega)
    · rcases hless with hless | ⟨hless, rfl⟩
      · exact .inl (by omega)
      · exact .inr ⟨by omega, List.mem_cons_of_mem _ hmem⟩

/-- No more was read of an argument than of the category that it is an argument of, and less if the
production has words of its own. -/
theorem Means.total_le (hF : Functional F) {q : ChartProduction} {p : Production}
    {L : List Span} (hmeans : Means c v F L q p) {parts : List Phrase}
    (hfills : Fills c (fun v => [v.base]) (.node p parts) L) {i : Nat} {Y : CatRef} {part : Phrase}
    (hY : q.args[i]? = some Y) (hpart : parts[i]? = some part) {fields : List Nat}
    (hcovers : Covers c (fun v => [v.base]) F Y fields part) :
    ∃ id L', p.args[i]? = some id ∧ Chain F Y id L' ∧ total L' ≤ total L ∧
      ((∀ field body, c.body? p field = some body → ∃ x ∈ body, x.Audible) → L ≠ [] →
        total L' < total L) := by
  have hi : i < p.args.length := hmeans.length ▸ (List.getElem?_eq_some_iff.1 hY).1
  have hid := List.getElem?_eq_getElem hi
  obtain ⟨Y', L', hY', hchain, hreads⟩ := hmeans.args i _ hid
  cases hY.symm.trans hY'
  obtain ⟨id', L'', hchain', hfills'⟩ := hcovers.chain
  obtain ⟨rfl, rfl⟩ := hchain'.unique hF hchain
  -- What was read of the argument is what the production reads of it.
  obtain ⟨m, hm, hle, hlt⟩ := hfills.weighs.part hpart
  rw [← hreads] at hm
  obtain rfl := hm.unique hfills'.weighs
  refine ⟨_, L'', hid, hchain', hle, fun haudible hL => hlt haudible ?_⟩
  simpa using hL

/-- An argument of a phrase that is followed directly is so too: below a coercion the instance is
kept in mind, below an application none is. -/
theorem Phrase.Direct.part {been : List InstanceId} {id id' : InstanceId} {p : Production}
    {parts : List Phrase} (h : (Phrase.node p parts).Direct been id) {i : Nat} {part : Phrase}
    (harg : p.args[i]? = some id') (hpart : parts[i]? = some part) :
    part.Direct (id :: been) id' ∨ part.Direct [] id' ∧ ∃ fn args, p = .apply fn args := by
  cases h with
  | @coerce _ _ target part' hnew h =>
    obtain ⟨hi, rfl⟩ := List.getElem?_eq_some_iff.1 harg
    obtain rfl : i = 0 := Nat.lt_one_iff.1 hi
    cases hpart
    exact .inl h
  | @apply _ _ fn args _ hnew hparts => exact .inr ⟨hparts i _ part harg hpart, fn, args, rfl⟩

theorem Phrase.Direct.not_mem {been : List InstanceId} {id : InstanceId} {p : Production}
    {parts : List Phrase} (h : (Phrase.node p parts).Direct been id) : id ∉ been := by
  cases h with
  | coerce hnew => exact hnew
  | apply hnew => exact hnew

/-- **Such a phrase is not given up.** Every category above has had more read of it, or as much and
then it is of an instance that the phrase has been at since the last application. -/
theorem Covers.unfoldsOff (hF : Sound c v ids goal F)
    (haudible : ∀ s ∈ c.sequences, ∃ x ∈ s, x.Audible) {X : CatRef} {fields : List Nat}
    {t : Phrase} (h : Covers c (fun v => [v.base]) F X fields t) (hfields : fields = [])
    {been : List InstanceId} {id : InstanceId} (hdirect : t.Direct been id) {L : List Span}
    (hchain : Chain F X id L) {path : List ChartCatId} (hpath : Above F been L path) :
    UnfoldsOff F path X t := by
  induction h generalizing been id L path with
  | grammar hmakes =>
    rw [hmakes.eq_unread_iff.2 hfields]
    exact .unread _ _
  | @chart done id₀ L₀ fields q p parts hchain₀ hfills hproduces hstems hlength hparts ih =>
    subst hfields
    obtain ⟨rfl, rfl⟩ := hchain₀.unique hF.functional hchain
    have hdone : done ∉ path := hpath.not_mem hF.functional hchain₀ hdirect.not_mem
    obtain ⟨p', hp, hmeans⟩ := hF.means hchain₀ hproduces
    obtain rfl := hstems.unique hF.functional hmeans.stems
    refine .node hdone hproduces hstems hlength fun i Y part hY hpart => ?_
    obtain ⟨id', L', hid, hchain', hle, hlt⟩ :=
      hmeans.total_le hF.functional hfills hY hpart (hparts i Y part hY hpart)
    rcases hdirect.part hid hpart with hdirect' | ⟨hdirect', fn, args, rfl⟩
    · exact ih i Y part hY hpart rfl hdirect' hchain' (hpath.cons hchain₀ (.inr ⟨hle, rfl⟩))
    · -- An application has a word of its own, so less was read of its argument.
      have hless : total L' < total L₀ := by
        refine hlt (fun field body hbody => ?_) ?_
        · exact haudible body (Concrete.mem_sequences_of_sequenceOf? hbody)
        · cases hchain₀
          simp
      exact ih i Y part hY hpart rfl hdirect' hchain' (hpath.cons hchain₀ (.inl hless))

end Polyglot
