import Polyglot.Proofs.Chart.Forest
import Polyglot.Proofs.Grammar.Copies

/-!
# How often a field is read at one position

What has been read of a category is a chain of stretches of the input. They come one after the
other, so at one position two of them at most have words, and all others that reach the position are
empty. How many of these there are is what the grammar decides.

- `readAt`: the fields of the stretches that reach a position.
- `Sound.orderly_of_chain`: stretches come one after the other.
- `Sound.readAt_sublist`: what is read of an argument at a position is read there for what is read
  of the category.
- `Spare`: no field is read at a position more often than its quota allows.
- `Spare.effect`: processing an item keeps it so, if the grammar is sparing with copies.
-/

namespace Polyglot

/-- The fields of those stretches that reach a position, ends included. -/
def readAt (e : Nat) (L : List Span) : List Nat :=
  (L.filter fun s => s.start ≤ e ∧ e ≤ s.stop).map Span.field

@[simp] theorem readAt_nil (e : Nat) : readAt e [] = [] := rfl

theorem readAt_append (e : Nat) (L L' : List Span) :
    readAt e (L ++ L') = readAt e L ++ readAt e L' := by
  rw [readAt, readAt, readAt, List.filter_append, List.map_append]

theorem readAt_singleton (e : Nat) (s : Span) :
    readAt e [s] = if s.start ≤ e ∧ e ≤ s.stop then [s.field] else [] := by
  by_cases h : s.start ≤ e ∧ e ≤ s.stop <;> simp [readAt, h]

theorem readAt_sublist_fields (e : Nat) (L : List Span) : (readAt e L).Sublist (L.map Span.field) :=
  List.filter_sublist.map _

/-- Nothing reaches a position that all stretches end before or start after. -/
theorem readAt_eq_nil {e : Nat} {L : List Span} (h : ∀ s ∈ L, ¬ (s.start ≤ e ∧ e ≤ s.stop)) :
    readAt e L = [] := by
  rw [readAt, List.filter_eq_nil_iff.2 fun s hs => by simpa using h s hs, List.map_nil]

/-! ## Stretches come one after the other -/

/-- Stretches of the input that were read of an instance, one after the other. -/
structure Orderly (c : Concrete) (id : InstanceId) (k : Nat) (L : List Span) : Prop where
  start_le : ∀ s ∈ L, s.start ≤ s.stop
  pairwise : L.Pairwise fun s s' => s.stop ≤ s'.start
  stop_le : ∀ s ∈ L, s.stop ≤ k
  hasField : ∀ s ∈ L, c.HasField id s.field

variable {c : Concrete} {v : Nat → Sym} {ids : List InstanceId} {goal k : Nat}
  {F F' : Fact → Prop} {item : Item} {new : Fact → Prop} {items : Item → Prop}

theorem Orderly.snoc {id : InstanceId} {j f : Nat} {L : List Span} (h : Orderly c id j L)
    (hle : j ≤ k) (hf : c.HasField id f) : Orderly c id k (L ++ [⟨f, j, k⟩]) where
  start_le s hs := by
    rcases List.mem_append.1 hs with hs | hs
    · exact h.start_le s hs
    · obtain rfl := List.mem_singleton.1 hs
      exact hle
  pairwise := by
    refine List.pairwise_append.2 ⟨h.pairwise, List.pairwise_singleton _ _, fun s hs s' hs' => ?_⟩
    obtain rfl := List.mem_singleton.1 hs'
    exact h.stop_le s hs
  stop_le s hs := by
    rcases List.mem_append.1 hs with hs | hs
    · exact Nat.le_trans (h.stop_le s hs) hle
    · obtain rfl := List.mem_singleton.1 hs
      exact Nat.le_refl _
  hasField s hs := by
    rcases List.mem_append.1 hs with hs | hs
    · exact h.hasField s hs
    · obtain rfl := List.mem_singleton.1 hs
      exact hf

theorem Orderly.of_readAt {id : InstanceId} {L : List Span} (h : Orderly c id k L) {e f : Nat}
    (hf : f ∈ readAt e L) : c.HasField id f := by
  obtain ⟨s, hs, rfl⟩ := List.mem_map.1 ((readAt_sublist_fields e L).subset hf)
  exact h.hasField s hs

/-- At most two stretches that reach a position have words: one that ends and one that starts
there, or one that goes on across it. -/
theorem Orderly.length_wide_le {id : InstanceId} {L : List Span} (h : Orderly c id k L) (e : Nat) :
    (L.filter fun s => (s.start ≤ e ∧ e ≤ s.stop) ∧ s.start < s.stop).length ≤ 2 := by
  have hpairwise := h.pairwise.filter fun s =>
    decide ((s.start ≤ e ∧ e ≤ s.stop) ∧ s.start < s.stop)
  have hall : ∀ s ∈ L.filter fun s => (s.start ≤ e ∧ e ≤ s.stop) ∧ s.start < s.stop,
      (s.start ≤ e ∧ e ≤ s.stop) ∧ s.start < s.stop :=
    fun s hs => of_decide_eq_true (List.mem_filter.1 hs).2
  generalize L.filter (fun s => (s.start ≤ e ∧ e ≤ s.stop) ∧ s.start < s.stop) = wide
    at hpairwise hall
  match wide, hpairwise, hall with
  | [], _, _ => exact Nat.zero_le 2
  | [_], _, _ => exact Nat.le_succ 1
  | [_, _], _, _ => exact Nat.le_refl 2
  | s₁ :: s₂ :: s₃ :: _, hpairwise, hall =>
    -- The one in the middle would start and end at the position.
    obtain ⟨h₁, hrest⟩ := List.pairwise_cons.1 hpairwise
    have h₁₂ := h₁ s₂ List.mem_cons_self
    have h₂₃ := (List.pairwise_cons.1 hrest).1 s₃ List.mem_cons_self
    have hs₁ := hall s₁ (by simp)
    have hs₂ := hall s₂ (by simp)
    have hs₃ := hall s₃ (by simp)
    omega

/-- A field that was not read as empty at a position was read there twice at most. -/
theorem Orderly.count_readAt_le {id : InstanceId} {L : List Span} (h : Orderly c id k L)
    {e f : Nat} (hnone : ⟨f, e, e⟩ ∉ L) : (readAt e L).count f ≤ 2 := by
  refine Nat.le_trans ?_ (h.length_wide_le e)
  rw [readAt, List.count, List.countP_map, List.countP_filter, ← List.countP_eq_length_filter]
  refine List.countP_mono_left fun s hs hreads => ?_
  simp only [Function.comp_apply, Bool.and_eq_true, beq_iff_eq, decide_eq_true_eq] at hreads ⊢
  obtain ⟨rfl, hstart, hstop⟩ := hreads
  refine ⟨⟨hstart, hstop⟩, Nat.lt_of_le_of_ne (h.start_le s hs) fun heq => hnone ?_⟩
  obtain ⟨f, start, stop⟩ := s
  obtain rfl : start = stop := heq
  obtain rfl : start = e := Nat.le_antisymm hstart hstop
  exact hs

namespace Sound

/-- What is predicted is a field of the instance that a category comes from. -/
theorem hasField_of_predicts (hF : Sound c v ids goal F) {S : ItemSetRef} {X : CatRef} {f : Nat}
    {top : Bool} (hset : F (.predicts S X f top)) {id : InstanceId} {L : List Span}
    (hchain : Chain F X id L) : c.HasField id f := by
  obtain ⟨⟨id', L', n, hchain', hn, hf⟩, -⟩ := hF.grounded _ hset
  obtain ⟨rfl, -⟩ := hchain'.unique hF.functional hchain
  exact ⟨n, hn, hf⟩

/-- What was read of a category was read one after the other. -/
theorem orderly_of_chain (hF : Sound c v ids goal F) {X : CatRef} {id : InstanceId} {L : List Span}
    (hchain : Chain F X id L) (hk : ∀ done, X = .chart done → done.step ≤ k) :
    Orderly c id k L := by
  induction hchain generalizing k with
  | grammar id => exact ⟨nofun, .nil, nofun, nofun⟩
  | @chart done S X f n id L hdone hchain ih =>
    obtain ⟨hle, ⟨top, hset⟩, -⟩ := hF.grounded _ hdone
    obtain ⟨-, hbefore, -⟩ := hF.grounded _ hset
    have h := (ih hbefore).snoc hle (hF.hasField_of_predicts hset hchain)
    exact { h with stop_le := fun s hs => Nat.le_trans (h.stop_le s hs) (hk done rfl) }

/-- It was read up to the last position of which anything is known. -/
theorem orderly_of_bound (hF : Sound c v ids goal F) (hbound : ∀ φ, F φ → φ.step ≤ k) {X : CatRef}
    {id : InstanceId} {L : List Span} (hchain : Chain F X id L) : Orderly c id k L := by
  refine hF.orderly_of_chain hchain fun done hX => ?_
  subst hX
  cases hchain with
  | chart hdone _ => exact hbound _ hdone

/-- What was read before a prediction was read one after the other, up to its position. -/
theorem orderly_of_predicts (hF : Sound c v ids goal F) {S : ItemSetRef} {X : CatRef} {f : Nat}
    {top : Bool} (hset : F (.predicts S X f top)) {id : InstanceId} {L : List Span}
    (hchain : Chain F X id L) : Orderly c id S.step L :=
  hF.orderly_of_chain hchain (hF.grounded _ hset).2.1

end Sound

/-! ## What is read of the arguments -/

/-- A part of a sequence that is read from a position on reads nothing of the arguments
elsewhere. -/
theorem Traced.readAt_sublist {q₀ q : ChartProduction} {j : Nat} {s : List Constituent}
    (h : Traced v F q₀ j s q k) {i : Nat} {X₀ : CatRef} {id : InstanceId} {L₀ : List Span}
    (harg₀ : q₀.args[i]? = some X₀) (hchain₀ : Chain F X₀ id L₀) :
    ∃ X L, q.args[i]? = some X ∧ Chain F X id L ∧ ∀ e,
      (readAt e L).Sublist (readAt e L₀ ++ if j ≤ e ∧ e ≤ k then fieldsOf i s else []) := by
  obtain ⟨X, L, harg, hchain, hfields, hwithin⟩ := h.spans harg₀ hchain₀
  refine ⟨X, L₀ ++ L, harg, hchain, fun e => ?_⟩
  rw [readAt_append]
  refine List.Sublist.append_left ?_ _
  split
  · exact hfields ▸ readAt_sublist_fields e L
  · rename_i houtside
    rw [readAt_eq_nil fun r hr hreach => houtside ?_]
    obtain ⟨hstart, hstop⟩ := hwithin r hr
    omega

/-- What is read of an argument at a position is read for what is read there of the category. -/
theorem Sound.readAt_sublist (hF : Sound c v ids goal F) {X : CatRef} {id : InstanceId}
    {L : List Span} (hX : Chain F X id L) {q : ChartProduction} (hq : Offers c F X q) :
    ∃ p ∈ c.productionsOf id, Means c v F L q p ∧
      ∀ (arg : Nat) (id' : InstanceId), p.args[arg]? = some id' → ∃ X' L', q.args[arg]? = some X' ∧
        Chain F X' id' L' ∧ ∀ e, (readAt e L').Sublist (c.reads p (readAt e L) arg) := by
  obtain ⟨p, hp, hmeans⟩ := hF.means hX hq
  refine ⟨p, hp, hmeans, ?_⟩
  induction hX generalizing q p with
  | grammar id =>
    intro arg id' hid'
    obtain ⟨X', L', hX', hchain', hfields⟩ := hmeans.args arg id' hid'
    refine ⟨X', L', hX', hchain', fun e => ?_⟩
    obtain rfl : L' = [] := List.map_eq_nil_iff.1 hfields
    exact List.nil_sublist _
  | @chart done S X f n id L hdone hchain ih =>
    obtain ⟨S', X', f', n', q₀, body, hdone', hoffers, hbody, htraced⟩ := hF.grounded _ hq
    obtain ⟨rfl, rfl, rfl, rfl⟩ := hF.functional.closes _ _ _ _ _ _ _ _ _ hdone hdone'
    obtain ⟨p₀, hp₀, hmeans₀⟩ := hF.means hchain hoffers
    -- The production that it was traced from stems from the same one of the grammar.
    obtain rfl : p₀ = p := by
      refine Stems.unique hF.functional ⟨?_, ?_, fun i id' hid' => ?_⟩ hmeans.stems
      · exact htraced.head_eq.trans hmeans₀.head
      · exact htraced.length_args.trans hmeans₀.length
      · obtain ⟨Y, L', hY, hchain', -⟩ := hmeans₀.args i id' hid'
        obtain ⟨Y', L'', hY', hchain'', -⟩ := htraced.chain hY hchain'
        exact ⟨Y', L'', hY', hchain''⟩
    have hbody' : c.body? p₀ f = some body := by rw [Concrete.body?, ← hmeans₀.head, hbody]
    intro arg id' hid'
    obtain ⟨Y₀, L₀, hY₀, hchain₀, hsub⟩ := ih hoffers p₀ hp₀ hmeans₀ arg id' hid'
    obtain ⟨Y, L', hY, hchain', hsub'⟩ := htraced.readAt_sublist hY₀ hchain₀
    refine ⟨Y, L', hY, hchain', fun e => (hsub' e).trans ?_⟩
    rw [readAt_append, Concrete.reads_append, readAt_singleton]
    refine (hsub e).append ?_
    split
    · rw [Concrete.reads_cons hbody', Concrete.reads_nil, List.append_nil]
    · exact List.Sublist.refl _

/-! ## Quotas -/

/-- No field is read at a position more often than its quota allows, counting the field that is
predicted, wherever the reading of it may end. -/
def Spare (c : Concrete) (most : Nat) (F : Fact → Prop) : Prop :=
  ∀ S X f top id L, F (.predicts S X f top) → Chain F X id L → ∀ stop, S.step ≤ stop →
    ∀ e g, (readAt e (L ++ [⟨f, S.step, stop⟩])).count g ≤ c.quota most (id, g)

variable {most : Nat}

/-- Before anything is complete nothing is read more than once. -/
theorem spare_of_not_closes (hnone : ∀ C S X f n, ¬ F (.closes C S X f n)) : Spare c most F := by
  intro S X f top id L _ hchain stop _ e g
  cases hchain with
  | chart hdone _ => exact absurd hdone (hnone _ _ _ _ _)
  | grammar =>
    refine Nat.le_trans (List.count_le_length.trans ?_)
      (Nat.le_trans (by omega : 1 ≤ 3) (Concrete.three_le_quota most _))
    exact (readAt_sublist_fields e _).length_le

/-- What has been read of a category is within the quotas. -/
theorem Spare.count_le (h : Spare c most F) (hF : Sound c v ids goal F) {X : CatRef}
    {id : InstanceId} {L : List Span} (hchain : Chain F X id L) (e g : Nat) :
    (readAt e L).count g ≤ c.quota most (id, g) := by
  cases hchain with
  | grammar => exact Nat.zero_le _
  | chart hdone hchain =>
    obtain ⟨hle, ⟨top, hset⟩, -⟩ := hF.grounded _ hdone
    exact h _ _ _ _ _ _ hset hchain _ hle e g

/-- A field that was read as empty is so in a phrase, by way of any production that is offered. -/
theorem Sound.elides (hF : Sound c v ids goal F) {X : CatRef} {id : InstanceId} {L : List Span}
    (hchain : Chain F X id L) {q : ChartProduction} (hoffers : Offers c F X q) {p : Production}
    (hmeans : Means c v F L q p) {e f : Nat} (hmem : ⟨f, e, e⟩ ∈ L) {arg g : Nat}
    {id' : InstanceId} (harg : p.args[arg]? = some id') (hread : g ∈ c.reads p [f] arg) :
    c.Elides id f p arg id' g := by
  cases hchain with
  | grammar => cases hmem
  | @chart done S _ _ _ _ _ hdone hchain =>
    have hlast : ∀ done', CatRef.chart done = .chart done' → done'.step ≤ done.step := by
      intro done' hdone'
      cases hdone'
      exact Nat.le_refl _
    have horderly := hF.orderly_of_chain (.chart hdone hchain) hlast
    obtain ⟨parts, hunfolds⟩ := hF.exists_unfolds_of_produces hoffers hmeans
    obtain ⟨hmakes, hyields⟩ := hF.makes_of_unfolds hunfolds (.chart hdone hchain)
    refine ⟨horderly.hasField _ hmem, ⟨_, parts, List.mem_map_of_mem hmem, hmakes, ?_⟩, harg, hread⟩
    have := hyields _ hmem
    rwa [between_self] at this

/-- What has been read of an argument at a position, with the field that an item asks for now, is
read for what has been read there of a category that offers the production, with the field of it
that the item is reading. -/
theorem Sound.asked_sublist (hF : Sound c v ids goal F)
    (hitem : Stands c v F k item) {arg f : Nat} (hx : c.constituent? item = some (.sub arg f))
    {X : CatRef} (harg : item.production.args[arg]? = some X) {id : InstanceId} {L : List Span}
    (hchain : Chain F X id L) :
    ∃ X₀ top id₀ L₀ q₀ p, F (.predicts item.set X₀ item.field top) ∧ item.set.step ≤ k ∧
      Chain F X₀ id₀ L₀ ∧ Offers c F X₀ q₀ ∧ p ∈ c.productionsOf id₀ ∧ Means c v F L₀ q₀ p ∧
      p.args[arg]? = some id ∧ ∀ e ≤ k, ∀ stop, (readAt e (L ++ [⟨f, k, stop⟩])).Sublist
        (c.reads p (readAt e (L₀ ++ [⟨item.field, item.set.step, k⟩])) arg) := by
  obtain ⟨hset, hoffers, hbody, htraced, hposition, hword⟩ := hitem
  rename_i X₀ top q₀ body k'
  simp only [Concrete.constituent?, htraced.head_eq, hbody, Option.bind_some] at hx
  -- An item that asks for a category is not within a form.
  obtain rfl : k' = k := by
    rcases hword with hzero | ⟨x, ts, hx', hform, -⟩
    · omega
    · cases hx.symm.trans hx'
      cases hform
  obtain ⟨⟨id₀, L₀, n₀, hchain₀, -⟩, -⟩ := hF.grounded _ hset
  obtain ⟨p, hp, hmeans, hreads⟩ := hF.readAt_sublist hchain₀ hoffers
  have hlt : arg < p.args.length := by
    rw [← hmeans.length, ← htraced.length_args]
    exact (List.getElem?_eq_some_iff.1 harg).1
  have hid := List.getElem?_eq_getElem hlt
  obtain ⟨Y₀, L₁, hY₀, hchain₁, hsub₁⟩ := hreads arg _ hid
  obtain ⟨Y, L', hY, hchain', hsub⟩ := htraced.readAt_sublist hY₀ hchain₁
  cases harg.symm.trans hY
  obtain ⟨rfl, rfl⟩ := hchain.unique hF.functional hchain'
  refine ⟨X₀, top, id₀, L₀, q₀, p, hset, htraced.le, hchain₀, hoffers, hp, hmeans, hid,
    fun e he stop => ?_⟩
  have hbody' : c.body? p item.field = some body := by rw [Concrete.body?, ← hmeans.head, hbody]
  have hnext : (fieldsOf arg (body.take item.dot) ++ [f]).Sublist (fieldsOf arg body) := by
    have htake := (List.take_sublist (item.dot + 1) body).filterMap (Constituent.fieldOf? arg)
    rw [List.take_add_one, hx, Option.toList_some, List.filterMap_append] at htake
    simpa [fieldsOf, Constituent.fieldOf?] using htake
  rw [readAt_append, readAt_append, Concrete.reads_append, readAt_singleton, readAt_singleton]
  refine ((hsub e).append_right _).trans ?_
  rw [List.append_assoc]
  refine (hsub₁ e).append ?_
  have hle := htraced.le
  dsimp only
  by_cases hstart : item.set.step ≤ e
  · have hreach : item.set.step ≤ e ∧ e ≤ k' := ⟨hstart, he⟩
    rw [if_pos hreach, if_pos hreach, Concrete.reads_cons hbody', Concrete.reads_nil,
      List.append_nil]
    refine List.Sublist.trans (List.Sublist.append_left ?_ _) hnext
    split
    · exact List.Sublist.refl _
    · exact List.nil_sublist _
  · rw [if_neg (by omega), if_neg (by omega)]
    exact List.nil_sublist _

section Predict

variable (hwf : c.WellFormed) (hs : c.Sparing)
  (hmost : ∀ id p, p ∈ c.productionsOf id → ∀ arg, (c.readsAll id p arg).length ≤ most)
  (hF : Sound c v ids goal F) (hbound : ∀ φ, F φ → φ.step ≤ k) (h : Spare c most F)
include hwf hs hmost hF hbound h

/-- A field that an item asks for is within the quotas if it is counted with what was read of the
argument before. -/
theorem Spare.asked (hitem : Stands c v F k item) {arg f : Nat}
    (hx : c.constituent? item = some (.sub arg f)) {X : CatRef}
    (harg : item.production.args[arg]? = some X) {id : InstanceId} {L : List Span}
    (hchain : Chain F X id L) (stop e g : Nat) :
    (readAt e (L ++ [⟨f, k, stop⟩])).count g ≤ c.quota most (id, g) := by
  rcases Nat.lt_or_ge k e with hlater | he
  · -- Only the new stretch goes beyond the position where it starts.
    have horderly := hF.orderly_of_bound hbound hchain
    rw [readAt_append, readAt_eq_nil fun s hs hreach => ?_, List.nil_append]
    · refine Nat.le_trans (List.count_le_length.trans ?_)
        (Nat.le_trans (by omega : 1 ≤ 3) (Concrete.three_le_quota most _))
      exact (readAt_sublist_fields e _).length_le
    · have := horderly.stop_le s hs
      omega
  · obtain ⟨X₀, top, id₀, L₀, q₀, p, hset, hle, hchain₀, hoffers, hp, hmeans, hid, hall⟩ :=
      hF.asked_sublist hitem hx harg hchain
    have horderly := hF.orderly_of_predicts hset hchain₀
    refine ((hall e he stop).count_le g).trans (hs.count_reads_le hwf hmost hp hid ?_ ?_)
    · exact fun field hfield => (horderly.snoc hle (hF.hasField_of_predicts hset hchain₀)).of_readAt
        hfield
    · intro field _ hread
      by_cases hempty : ⟨field, e, e⟩ ∈ L₀
      · exact .inr ⟨hF.elides hchain₀ hoffers hmeans hempty hid hread,
          h _ _ _ _ _ _ hset hchain₀ _ hle e field⟩
      · left
        rw [readAt_append, List.count_append]
        have hold := horderly.count_readAt_le hempty
        have hnew : (readAt e [⟨item.field, item.set.step, k⟩]).count field ≤ 1 :=
          List.count_le_length.trans (readAt_sublist_fields e _).length_le
        omega

/-- **Processing an item keeps the quotas.** Only a prediction could exceed them. -/
theorem Spare.effect (hitem : Stands c v F k item) (heffect : Effect c k F item new items)
    (hF' : ∀ φ, F' φ ↔ F φ ∨ new φ) (hfun : Functional F') : Spare c most F' := by
  have hmono : ∀ φ, F φ → F' φ := fun φ h => (hF' φ).2 (.inl h)
  intro S X f top id L hset hchain stop hstop e g
  rcases (hF' _).1 hset with hset | hset
  · obtain ⟨⟨id', L', -, hchain', -⟩, -⟩ := hF.grounded _ hset
    obtain ⟨rfl, rfl⟩ := (hchain'.mono hmono).unique hfun hchain
    exact h _ _ _ _ _ _ hset hchain' stop hstop e g
  · cases heffect with
    | @predict arg f' X' S' r hx harg hnone hS hr hfree =>
      obtain ⟨rfl, rfl, rfl⟩ : S = S' ∧ X = X' ∧ f = f' := by
        rcases hset with hset | hset | hset <;> cases hset
        exact ⟨rfl, rfl, rfl⟩
      obtain ⟨id', L', hchain'⟩ := hF.chain_of_mem_args hitem (List.mem_of_getElem? harg)
      obtain ⟨rfl, rfl⟩ := (hchain'.mono hmono).unique hfun hchain
      subst hS
      exact h.asked hwf hs hmost hF hbound hitem hx harg hchain' stop e g
    | stall => exact hset.elim
    | found => exact hset.elim
    | read =>
      obtain ⟨t, i, idx, -, hset | hset⟩ := hset <;> cases hset
    | join => rcases hset with hset | hset <;> cases hset
    | pack => cases hset
    | close => rcases hset with hset | hset | ⟨-, hset⟩ <;> cases hset

end Predict

end Polyglot
