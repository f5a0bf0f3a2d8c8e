import Polyglot.Proofs.Chart.Forest

/-!
# Every phrase with the words of the input is found

A phrase whose words are those of the input is followed through a chart in which nothing that is due
was left out. At each constituent of a sequence there is an item that has been processed; it waits
for the next word, which is read, or for a field of a category that covers the part of the phrase
that comes next, and that is followed in turn. Where the words go on beyond the end of the chart,
something waits for the next one.

- `Leads`: the input leads up to a position where something holds, or beyond the end of the chart.
- `Walks`: what it means to follow a sequence.
- `Saturated.walks`: every sequence that spells the words of the input can be followed, by induction
  on how it spells them.
- `Saturated.closes_of_yields`: so a field of a phrase is completed where its words end.
-/

namespace Polyglot

variable {c : Concrete} {v : Nat → Sym} {ids : List InstanceId} {goal n : Nat} {F : Fact → Prop}
  {done : Nat → Item → Prop} {pick : Variants → List (List Sym)}

/-- Something waits for the token after the end of a chart. -/
def Expects (v : Nat → Sym) (F : Fact → Prop) (n : Nat) : Prop := ∃ idx, F (.awaits n (v n) idx)

/-- Following the input up to a position leads to something, or the chart ends before and something
waits for the next token. -/
def Leads (v : Nat → Sym) (F : Fact → Prop) (n stop : Nat) (P : Prop) : Prop :=
  (n < stop → Expects v F n) ∧ (stop ≤ n → P)

theorem Leads.here {k : Nat} (hk : k ≤ n) {P : Prop} (h : P) : Leads v F n k P :=
  ⟨fun hlt => absurd hlt (Nat.not_lt.2 hk), fun _ => h⟩

theorem Leads.imp {stop : Nat} {P Q : Prop} (h : Leads v F n stop P) (himp : P → Q) :
    Leads v F n stop Q :=
  ⟨h.1, fun hle => himp (h.2 hle)⟩

/-- The input is followed in two stretches. -/
theorem Leads.bind {mid stop : Nat} {P Q : Prop} (h : Leads v F n mid P) (hle : mid ≤ stop)
    (hnext : mid ≤ n → P → Leads v F n stop Q) : Leads v F n stop Q := by
  by_cases hmid : mid ≤ n
  · exact hnext hmid (h.2 hmid)
  · refine ⟨fun _ => h.1 (Nat.lt_of_not_le hmid), fun hstop => ?_⟩
    exact absurd (Nat.le_trans hle hstop) hmid

/-- A stretch of the input is the beginning of a longer one. -/
theorem between_of_append {v : Nat → Sym} {k : Nat} (ts : List Sym) {ws : List Sym}
    (h : between v k (k + (ts ++ ws).length) = ts ++ ws) :
    between v k (k + ts.length) = ts ∧
      between v (k + ts.length) (k + ts.length + ws.length) = ws := by
  rw [List.length_append, ← Nat.add_assoc,
    ← between_append (Nat.le_add_right k ts.length) (Nat.le_add_right _ ws.length)] at h
  exact List.append_inj h (by simp [length_between])

/-- Moving the first entry of one list to the end of another keeps how many there are. -/
theorem length_snoc_add {α : Type} (before : List α) (x : α) (s : List α) :
    (before ++ [x]).length + s.length = before.length + (x :: s).length := by
  simp only [List.length_append, List.length_cons, List.length_nil]
  omega

namespace Saturated

theorem done_of_due (hsat : Saturated c v F n (fun _ => False) done) {k : Nat} {i : Item}
    (hk : k ≤ n) (h : Due c v F k i) : done k i := by
  rcases hsat.due k i hk h with h | ⟨-, h⟩
  · exact h
  · exact h.elim

/-! ## Words -/

/-- An item that waits for the next token moves over it. -/
theorem read_token (hsat : Saturated c v F n (fun _ => False) done) {k idx : Nat} {w : Item}
    (hk : k ≤ n) (hawaits : F (.awaits k (v k) idx)) (hw : F (.item ⟨k, idx⟩ w)) {x : Constituent}
    {ts : List Sym} (hx : c.constituent? w = some x) (hform : x.formAt? w.form = some ts) :
    Leads v F n (k + 1) (done (k + 1) (w.moved ts.length)) := by
  refine ⟨fun hlt => ?_, fun hle => hsat.done_of_due hle (.scan hawaits hw hx hform)⟩
  obtain rfl : k = n := Nat.le_antisymm hk (Nat.le_of_lt_succ hlt)
  exact ⟨idx, hawaits⟩

/-- An item that waits for a word of a form reads on to the end of the form. -/
theorem read_on (hsat : Saturated c v F n (fun _ => False) done) {k idx : Nat} {w : Item}
    (hk : k ≤ n) (hawaits : F (.awaits k (v k) idx)) (hw : F (.item ⟨k, idx⟩ w)) {x : Constituent}
    {ts : List Sym} (hx : c.constituent? w = some x) (hform : x.formAt? w.form = some ts)
    (hlt : w.word < ts.length)
    (hinput : between v k (k + (ts.drop w.word).length) = ts.drop w.word) :
    Leads v F n (k + (ts.drop w.word).length)
      (done (k + (ts.drop w.word).length) w.advanced) := by
  -- On the words that are left.
  induction hm : ts.length - w.word using Nat.strongRecOn generalizing k idx w with
  | ind m ih =>
    have hdrop : ts.drop w.word = ts[w.word] :: ts.drop (w.word + 1) :=
      List.drop_eq_getElem_cons hlt
    rw [hdrop] at hinput ⊢
    obtain ⟨-, hrest⟩ := between_of_append [ts[w.word]] hinput
    rw [List.length_cons, ← Nat.add_assoc, Nat.add_right_comm]
    refine (hsat.read_token hk hawaits hw hx hform).bind (Nat.le_add_right ..) fun hle hmoved => ?_
    rw [Item.moved] at hmoved
    dsimp only at hmoved
    split at hmoved
    · rename_i hlast
      rw [List.drop_eq_nil_of_le hlast]
      exact .here hle hmoved
    · rename_i hmore
      have hlt' : w.word + 1 < ts.length := by omega
      have hnext := List.getElem?_eq_getElem hlt'
      obtain ⟨idx', hawaits', hw'⟩ :=
        (hsat.served (k + 1) _ hmoved).later x ts _ hx (Nat.succ_pos _) hform hnext
      have htoken : v (k + 1) = ts[w.word + 1] := by
        rw [List.drop_eq_getElem_cons hlt'] at hrest
        obtain ⟨hfirst, -⟩ := between_of_append [ts[w.word + 1]] hrest
        simpa [between] using hfirst
      rw [← htoken] at hawaits'
      exact ih (ts.length - (w.word + 1)) (by omega) (w := { w with word := w.word + 1 }) hle
        hawaits' hw' hx hform hlt' hrest rfl

/-- An item before a constituent that consists of words reads any of its forms. -/
theorem read_form (hsat : Saturated c v F n (fun _ => False) done) {k : Nat} {i : Item}
    (hdone : done k i) (hk : k ≤ n) {x : Constituent} {ts : List Sym}
    (hx : c.constituent? i = some x) (hword : i.word = 0) (hform : ts ∈ x.forms)
    (hinput : between v k (k + ts.length) = ts) :
    Leads v F n (k + ts.length) (done (k + ts.length) i.advanced) := by
  cases ts with
  | nil =>
    rcases (hsat.served k i hdone).skip x hx hword hform with h | ⟨-, h⟩
    · exact .here hk h
    · exact h.elim
  | cons t ts =>
    obtain ⟨form, idx, hform', hawaits, hitem⟩ :=
      (hsat.served k i hdone).first x t ts hx hword hform
    obtain ⟨hfirst, -⟩ := between_of_append [t] hinput
    have htoken : v k = t := by simpa [between] using hfirst
    rw [← htoken] at hawaits
    have hread := hsat.read_on (w := { i with form }) hk hawaits hitem hx hform'
      (by simp [hword]) (by simpa only [hword, List.drop_zero] using hinput)
    simp only [hword, List.drop_zero] at hread
    exact hread

end Saturated

/-! ## Sequences -/

/-- A sequence that spells words can be followed: from an item before it, at a place where these
words come next, to an item after it, or to the end of the chart. -/
def Walks (c : Concrete) (pick : Variants → List (List Sym)) (v : Nat → Sym) (F : Fact → Prop)
    (n : Nat) (done : Nat → Item → Prop) (parts : List Phrase) (s : List Constituent)
    (ws : List Sym) : Prop :=
  ∀ (i : Item) (k : Nat) (p : Production) (rest : Nat → List Nat) (before : List Constituent),
    done k i → k ≤ n → i.word = 0 → i.form = 0 → i.dot = before.length →
    c.bodyOf? i.production.head i.field = some (before ++ s) →
    Parts c pick F i.production p (fun arg => fieldsOf arg s ++ rest arg) parts →
    between v k (k + ws.length) = ws →
    Leads v F n (k + ws.length) (∃ q,
      done (k + ws.length) { i with production := q, dot := before.length + s.length } ∧
        Parts c pick F q p rest parts)

namespace Saturated

/-- If the sequence for a field can be followed, then the field is completed where its words end. -/
theorem closes_of_walks (hsat : Saturated c v F n (fun _ => False) done)
    (hF : Sound c v ids goal F) {ps : List Phrase} {body : Sequence} {ts : List Sym}
    (hwalks : Walks c pick v F n done ps body ts) (hspells : c.Spells pick ps body ts)
    {S : ItemSetRef} {X : CatRef} {f : Nat} {top : Bool} (hset : F (.predicts S X f top))
    (hS : S.step ≤ n) {p : Production} {fields : List Nat} (hbody : c.body? p f = some body)
    (hcovers : Covers c pick F X (f :: fields) (.node p ps))
    (hinput : between v S.step (S.step + ts.length) = ts) :
    Leads v F n (S.step + ts.length) (∃ C m, F (.closes C S X f m) ∧
      C.step = S.step + ts.length ∧ Covers c pick F (.chart C) fields (.node p ps)) := by
  obtain ⟨q₀, hoffers, hparts⟩ := hcovers.offers
  have hstart := hsat.done_of_due hS (.start hset hoffers)
  have hrest : c.reads p (f :: fields) = fun arg => fieldsOf arg body ++ c.reads p fields arg :=
    funext fun arg => Concrete.reads_cons hbody fields arg
  have hhead : c.bodyOf? q₀.head f = some body := by rw [hparts.stems.head]; exact hbody
  refine (hwalks { set := S, production := q₀, field := f } S.step p (c.reads p fields) [] hstart
    hS rfl rfl rfl hhead (hrest ▸ hparts) hinput).imp ?_
  rintro ⟨q, hdone, hparts'⟩
  have hended : c.Ended
      { set := S, production := q, field := f, dot := ([] : Sequence).length + body.length } :=
    ⟨body, by rw [← hhead, hparts'.stems.head, hparts.stems.head], by simp⟩
  obtain ⟨C, X', f', m, hcloses, hC, hproduces⟩ := (hsat.served _ _ hdone).complete hended
  obtain ⟨-, ⟨top', hset'⟩, -⟩ := hF.grounded _ hcloses
  obtain ⟨rfl, rfl, -⟩ := hF.functional.predicts _ _ _ _ _ _ _ hset hset'
  obtain ⟨id, L, hchain, hfills⟩ := hcovers.chain
  refine ⟨C, m, hcloses, hC, .chart (.chart hcloses hchain) (fun s hs => ?_) hproduces
    hparts'.stems hparts'.length hparts'.covers⟩
  rcases List.mem_append.1 hs with hs | hs
  · exact hfills s hs
  · obtain rfl := List.mem_singleton.1 hs
    exact ⟨ts, ⟨p, ps, body, rfl, hbody, hspells⟩, hC⟩

/-- **Every sequence that spells words can be followed.** -/
theorem walks (hpick : ∀ w, pick w ⊆ w.forms) (hsat : Saturated c v F n (fun _ => False) done)
    (hF : Sound c v ids goal F) {parts : List Phrase} {s : List Constituent} {ws : List Sym}
    (h : c.Spells pick parts s ws) : Walks c pick v F n done parts s ws := by
  induction h with
  | nil parts =>
    intro i k p rest before hdone hk hword hform hdot hbody hparts hinput
    exact .here hk ⟨i.production, by simpa [← hdot] using hdone, hparts⟩
  | @words parts x s ts ws hmem _ ih =>
    intro i k p rest before hdone hk hword hform hdot hbody hparts hinput
    have hx : c.constituent? i = some x := by simp [Concrete.constituent?, hbody, hdot]
    obtain ⟨hfirst, hlater⟩ := between_of_append ts hinput
    have hform' : ts ∈ x.forms := Constituent.formsBy_subset hpick x hmem
    rw [List.length_append, ← Nat.add_assoc]
    refine (hsat.read_form hdone hk hx hword hform' hfirst).bind (Nat.le_add_right ..)
      fun hle hdone' => ?_
    have hparts' : Parts c pick F i.production p (fun arg => fieldsOf arg s ++ rest arg) parts :=
      ⟨hparts.stems, hparts.length, fun a X part hX hpart => by
        rw [← fieldsOf_words hform' a s]
        exact hparts.covers a X part hX hpart⟩
    refine (ih i.advanced (k + ts.length) p rest (before ++ [x]) hdone' hle rfl rfl
      (by simp [Item.advanced, hdot]) (by simpa [Item.advanced] using hbody) hparts' hlater).imp ?_
    rintro ⟨q, hq, hparts''⟩
    refine ⟨q, ?_, hparts''⟩
    rw [← length_snoc_add]
    simpa only [Item.advanced, hword, hform] using hq
  | @sub parts ps arg field s body p' ts ws hpart hbody' hread _ ihread ihrest =>
    intro i k p rest before hdone hk hword hform hdot hbody hparts hinput
    have hx : c.constituent? i = some (.sub arg field) := by
      simp [Concrete.constituent?, hbody, hdot]
    obtain ⟨X, S, top, r, harg, rfl, hset, hwaits, hitem⟩ :=
      (hsat.served k i hdone).category arg field hx
    obtain ⟨hfirst, hlater⟩ := between_of_append ts hinput
    have hcovers := hparts.covers arg X _ harg hpart
    rw [fieldsOf_sub, List.cons_append] at hcovers
    rw [List.length_append, ← Nat.add_assoc]
    -- First the field of the argument is followed, and then, from where it ends, the rest.
    refine (hsat.closes_of_walks hF ihread hread hset hk hbody' hcovers hfirst).bind
      (Nat.le_add_right ..) ?_
    rintro hle ⟨C, m, hcloses, hC, hcovers'⟩
    rw [← hC] at hle hlater ⊢
    have hresume := hsat.done_of_due hle (.resume hcloses hwaits hitem hx)
    have hparts' : Parts c pick F (i.production.bind arg (.chart C)) p
        (fun arg => fieldsOf arg s ++ rest arg) parts :=
      hparts.bind harg hpart hcloses hcovers' fun a ha => by
        rw [fieldsOf_sub_of_ne (Ne.symm ha)]
    refine (ihrest (i.resume arg C) C.step p rest (before ++ [.sub arg field]) hresume hle rfl rfl
      (by simp [Item.resume, Item.advanced, hdot])
      (by simpa [Item.resume, Item.advanced] using hbody) hparts' hlater).imp ?_
    rintro ⟨q, hq, hparts''⟩
    refine ⟨q, ?_, hparts''⟩
    rw [← length_snoc_add]
    simpa only [Item.resume, Item.advanced, hword, hform] using hq

/-- A field of a phrase that is predicted where its words come next is completed where they end, or
something waits for the next one. -/
theorem closes_of_yields (hpick : ∀ w, pick w ⊆ w.forms)
    (hsat : Saturated c v F n (fun _ => False) done) (hF : Sound c v ids goal F)
    {S : ItemSetRef} {X : CatRef} {f : Nat} {top : Bool} (hset : F (.predicts S X f top))
    (hS : S.step ≤ n) {t : Phrase} {fields : List Nat} (hcovers : Covers c pick F X (f :: fields) t)
    {ts : List Sym} (hyields : t.Yields c pick f ts)
    (hinput : between v S.step (S.step + ts.length) = ts) :
    Leads v F n (S.step + ts.length) (∃ C m, F (.closes C S X f m) ∧
      C.step = S.step + ts.length ∧ Covers c pick F (.chart C) fields t) := by
  obtain ⟨p, parts, body, rfl, hbody, hspells⟩ := hyields
  exact hsat.closes_of_walks hF (hsat.walks hpick hF hspells) hspells hset hS hbody hcovers hinput

end Saturated

end Polyglot
