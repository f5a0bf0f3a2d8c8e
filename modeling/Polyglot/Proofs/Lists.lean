import Mathlib

/-!
# Lists that match member by member

The arguments of an application, what is expected of them and what is found for them are lists of
one length that match place by place. These lemmas lead from the places to the lists and back.

- `exists_forall₂`, `exists_list_of_lt`: what exists for every member, or at every place, makes a
  list.
- `forall₂_of_getElem?`, `rel_of_forall₂`: lists match when they do at every place.
- `rel_getElem?_of_forall₂`, `rel_find?_of_forall₂`: so what is looked up in them matches.
- `exists_rel_of_forall₂`, `findIdx?_eq_of_forall₂`: and is found at the same places.
- `exists_of_mem_forall₂`: every member has a match.
- `forall₂_set`: lists go on to match when matching members are put at one place of them.
- `exists_between_forall₂`, `forall₂_comp`: where members have something between them, so do the
  lists, and lists match that have a matching one between them.

Where a list is gathered without repetitions, it has the first occurrences of its members.

- `eraseDups_concat`: one member more is put last, if it is new.
- `nodup_eraseDups`, `eraseDups_sublist`: what stays is distinct and in the same order.
-/

namespace Polyglot

/-- A list is mapped member by member, if every member can be. -/
theorem mapM_eq_some_iff_forall₂ {α β : Type} {f : α → Option β} {as : List α} {bs : List β} :
    as.mapM f = some bs ↔ List.Forall₂ (fun a b => f a = some b) as bs := by
  induction as generalizing bs with
  | nil => simp [eq_comm]
  | cons a as ih =>
    rw [List.forall₂_cons_left_iff]
    simp only [List.mapM_cons, Option.bind_eq_bind, Option.bind_eq_some_iff, Option.pure_def,
      Option.some.injEq]
    constructor
    · rintro ⟨b, hb, bs', hbs, rfl⟩
      exact ⟨b, bs', hb, ih.1 hbs, rfl⟩
    · rintro ⟨b, bs', hb, hbs, rfl⟩
      exact ⟨b, hb, bs', ih.2 hbs, rfl⟩

/-- Choices for the members of a list make a list of choices. -/
theorem exists_forall₂ {α β : Type} {R : α → β → Prop} {as : List α}
    (h : ∀ a ∈ as, ∃ b, R a b) : ∃ bs, List.Forall₂ R as bs := by
  induction as with
  | nil => exact ⟨[], .nil⟩
  | cons a as ih =>
    obtain ⟨b, hb⟩ := h a List.mem_cons_self
    obtain ⟨bs, hbs⟩ := ih fun a' ha' => h a' (List.mem_cons_of_mem _ ha')
    exact ⟨b :: bs, .cons hb hbs⟩

/-- Choices for the places of a list make a list. -/
theorem exists_list_of_lt {β : Type} {n : Nat} {P : Nat → β → Prop} (h : ∀ i < n, ∃ b, P i b) :
    ∃ bs : List β, bs.length = n ∧ ∀ (i : Nat) (b : β), bs[i]? = some b → P i b := by
  choose f hf using h
  refine ⟨List.ofFn fun i : Fin n => f i i.isLt, List.length_ofFn, fun i b hb => ?_⟩
  obtain ⟨hi, rfl⟩ := List.getElem?_eq_some_iff.1 hb
  rw [List.getElem_ofFn]
  exact hf i _

/-- Lists of one length match if their members do at every place. -/
theorem forall₂_of_getElem? {α β : Type} {R : α → β → Prop} {as : List α} {bs : List β}
    (hlength : as.length = bs.length)
    (h : ∀ (i : Nat) (a : α) (b : β), as[i]? = some a → bs[i]? = some b → R a b) :
    List.Forall₂ R as bs :=
  List.forall₂_iff_get.2 ⟨hlength, fun i hi hi' =>
    h i _ _ (List.getElem?_eq_getElem hi) (List.getElem?_eq_getElem hi')⟩

/-- Lists that match do so at every place. -/
theorem rel_of_forall₂ {α β : Type} {R : α → β → Prop} {as : List α} {bs : List β}
    (h : List.Forall₂ R as bs) {i : Nat} {a : α} {b : β} (ha : as[i]? = some a)
    (hb : bs[i]? = some b) : R a b := by
  obtain ⟨hi, rfl⟩ := List.getElem?_eq_some_iff.1 ha
  obtain ⟨hi', rfl⟩ := List.getElem?_eq_some_iff.1 hb
  exact h.get hi hi'

/-- Lists that match have matching members at every place. -/
theorem rel_getElem?_of_forall₂ {α β : Type} {R : α → β → Prop} {as : List α} {bs : List β}
    (h : List.Forall₂ R as bs) (i : Nat) : Option.Rel R as[i]? bs[i]? := by
  induction h generalizing i with
  | nil => exact .none
  | cons hab _ ih =>
    cases i with
    | zero => exact .some hab
    | succ i => exact ih i

/-- What is at a place of an array has a match at that place of a matching one. -/
theorem exists_rel_of_forall₂ {α β : Type} {R : α → β → Prop} {as : Array α} {bs : Array β}
    (h : List.Forall₂ R as.toList bs.toList) {i : Nat} {a : α} (ha : as[i]? = some a) :
    ∃ b, bs[i]? = some b ∧ R a b := by
  have hsize : as.size = bs.size := h.length_eq
  have hi : i < bs.size := hsize ▸ (Array.getElem?_eq_some_iff.1 ha).1
  have hb : bs[i]? = some bs[i] := Array.getElem?_eq_getElem hi
  exact ⟨_, hb, rel_of_forall₂ h (Array.getElem?_toList.trans ha) (Array.getElem?_toList.trans hb)⟩

/-- Lists that match go on to do so when matching members are put at one place of them. -/
theorem forall₂_set {α β : Type} {R : α → β → Prop} {as : List α} {bs : List β}
    (h : List.Forall₂ R as bs) {a : α} {b : β} (hab : R a b) (i : Nat) :
    List.Forall₂ R (as.set i a) (bs.set i b) := by
  induction h generalizing i with
  | nil => exact .nil
  | cons hfirst hrest ih =>
    cases i with
    | zero => exact .cons hab hrest
    | succ i => exact .cons hfirst (ih i)

/-- What is looked for in lists that match is found in both of them or in none. -/
theorem rel_find?_of_forall₂ {α β : Type} {R : α → β → Prop} {as : List α} {bs : List β}
    (h : List.Forall₂ R as bs) {p : α → Bool} {q : β → Bool} (hpq : ∀ a b, R a b → q b = p a) :
    Option.Rel R (as.find? p) (bs.find? q) := by
  induction h with
  | nil => exact .none
  | @cons a b as bs hab _ ih =>
    rw [List.find?_cons, List.find?_cons, hpq a b hab]
    cases p a with
    | true => exact .some hab
    | false => exact ih

/-- What is looked for in lists that match is found at the same place of both. -/
theorem findIdx?_eq_of_forall₂ {α β : Type} {R : α → β → Prop} {as : List α} {bs : List β}
    (h : List.Forall₂ R as bs) {p : α → Bool} {q : β → Bool} (hpq : ∀ a b, R a b → q b = p a) :
    bs.findIdx? q = as.findIdx? p := by
  induction h with
  | nil => rfl
  | @cons a b as bs hab _ ih => rw [List.findIdx?_cons, List.findIdx?_cons, hpq a b hab, ih]

/-- Where members that match have something between them, so do the lists. -/
theorem exists_between_forall₂ {α β γ : Type} {R : α → β → Prop} {P : α → γ → Prop}
    {Q : γ → β → Prop} {as : List α} {bs : List β} (h : List.Forall₂ R as bs)
    (hbetween : ∀ a ∈ as, ∀ b, R a b → ∃ x, P a x ∧ Q x b) :
    ∃ xs, List.Forall₂ P as xs ∧ List.Forall₂ Q xs bs := by
  induction h with
  | nil => exact ⟨[], .nil, .nil⟩
  | @cons a b as bs hab _ ih =>
    obtain ⟨x, hax, hxb⟩ := hbetween a List.mem_cons_self b hab
    obtain ⟨xs, has, hbs⟩ := ih fun a ha => hbetween a (List.mem_cons_of_mem _ ha)
    exact ⟨x :: xs, .cons hax has, .cons hxb hbs⟩

/-- A member of a list has a match in a list that matches it. -/
theorem exists_of_mem_forall₂ {α β : Type} {R : α → β → Prop} {as : List α} {bs : List β}
    (h : List.Forall₂ R as bs) {b : β} (hb : b ∈ bs) : ∃ a ∈ as, R a b := by
  induction h with
  | nil => cases hb
  | @cons a b' as bs hab _ ih =>
    rcases List.mem_cons.1 hb with rfl | hb
    · exact ⟨a, List.mem_cons_self, hab⟩
    · obtain ⟨a', ha', hrel⟩ := ih hb
      exact ⟨a', List.mem_cons_of_mem _ ha', hrel⟩

/-- Lists that match a third one match each other. -/
theorem forall₂_comp {α β γ : Type} {R : α → β → Prop} {P : α → γ → Prop} {Q : γ → β → Prop}
    {as : List α} {xs : List γ} {bs : List β} (h : List.Forall₂ P as xs)
    (h' : List.Forall₂ Q xs bs) (hR : ∀ a x b, P a x → Q x b → R a b) : List.Forall₂ R as bs := by
  induction h generalizing bs with
  | nil =>
    cases h'
    exact .nil
  | cons hax _ ih =>
    cases h' with
    | cons hxb hrest => exact .cons (hR _ _ _ hax hxb) (ih hrest)

/-! ## First occurrences -/

/-- The first occurrences of the members of a list are distinct. -/
theorem nodup_eraseDups {α : Type} [BEq α] [LawfulBEq α] : ∀ as : List α, as.eraseDups.Nodup
  | [] => .nil
  | a :: as => by
    rw [List.eraseDups_cons, List.nodup_cons]
    exact ⟨by simp [List.mem_eraseDups], nodup_eraseDups _⟩
termination_by as => as.length
decreasing_by exact Nat.lt_succ_of_le (List.length_filter_le ..)

theorem eraseDups_sublist {α : Type} [BEq α] [LawfulBEq α] :
    ∀ as : List α, as.eraseDups.Sublist as
  | [] => .slnil
  | a :: as => by
    rw [List.eraseDups_cons]
    exact ((eraseDups_sublist _).trans List.filter_sublist).cons_cons a
termination_by as => as.length
decreasing_by exact Nat.lt_succ_of_le (List.length_filter_le ..)

theorem eraseDups_concat {α : Type} [BEq α] [LawfulBEq α] (as : List α) (a : α)
    [Decidable (a ∈ as)] :
    (as ++ [a]).eraseDups = if a ∈ as then as.eraseDups else as.eraseDups ++ [a] := by
  rw [List.eraseDups_append]
  by_cases h : a ∈ as <;> simp [List.removeAll, h, List.eraseDups_cons]

end Polyglot
