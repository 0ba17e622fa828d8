import Mathlib.Data.List.Basic
import Mathlib.Data.List.Nodup
import Mathlib.Data.List.Count

/-! # Lists of records found by a key

A table kept as a list in which no two records have the same key. Lookups, in-place
updates and removals leave every other record, and the order, alone. -/
namespace KeyedList

variable {α κ : Type*} (key : α → κ)

def Distinct (l : List α) : Prop := (l.map key).Nodup

variable {key} in
theorem distinct_cons {x : α} {l : List α} :
    Distinct key (x :: l) ↔ (∀ y ∈ l, key y ≠ key x) ∧ Distinct key l := by
  simp [Distinct]

variable [DecidableEq κ]

instance (l : List α) : Decidable (Distinct key l) :=
  inferInstanceAs (Decidable (l.map key).Nodup)

def lookup (k : κ) (l : List α) : Option α := l.find? fun x => key x = k

def modify (k : κ) (f : α → α) (l : List α) : List α :=
  l.map fun x => if key x = k then f x else x

def remove (k : κ) (l : List α) : List α := l.filter fun x => key x ≠ k

variable {key}

theorem lookup_eq_none {k : κ} {l : List α} : lookup key k l = none ↔ ∀ x ∈ l, key x ≠ k := by
  simp [lookup]

theorem mem_of_lookup {k : κ} {l : List α} {x : α} (h : lookup key k l = some x) :
    x ∈ l ∧ key x = k := by
  refine ⟨List.mem_of_find?_eq_some h, ?_⟩
  simpa using List.find?_some h

theorem lookup_of_mem {l : List α} (hd : Distinct key l) {x : α} (hx : x ∈ l) :
    lookup key (key x) l = some x := by
  induction l with
  | nil => cases hx
  | cons y l ih =>
    rw [distinct_cons] at hd
    rcases List.mem_cons.mp hx with rfl | hx
    · simp [lookup]
    · have hne : key y ≠ key x := Ne.symm (hd.1 x hx)
      have := ih hd.2 hx
      simpa [lookup, List.find?_cons, hne] using this

theorem lookup_append {k : κ} {l : List α} {x : α} :
    lookup key k (l ++ [x]) = (lookup key k l).or (if key x = k then some x else none) := by
  unfold lookup
  rw [List.find?_append]
  by_cases hk : key x = k <;> simp [hk]

theorem map_key_modify {k : κ} {f : α → α} (hf : ∀ x, key (f x) = key x) (l : List α) :
    (modify key k f l).map key = l.map key := by
  simp only [modify, List.map_map]
  apply List.map_congr_left
  intro x _
  simp only [Function.comp_apply]
  split <;> simp [hf]

theorem distinct_modify {k : κ} {f : α → α} (hf : ∀ x, key (f x) = key x) {l : List α} :
    Distinct key (modify key k f l) ↔ Distinct key l := by
  simp [Distinct, map_key_modify hf]

theorem lookup_modify_self {k : κ} {f : α → α} (hf : ∀ x, key (f x) = key x) (l : List α) :
    lookup key k (modify key k f l) = (lookup key k l).map f := by
  induction l with
  | nil => rfl
  | cons y l ih =>
    by_cases hy : key y = k
    · simp [lookup, modify, hf, hy]
    · simpa [lookup, modify, hy] using ih

theorem lookup_modify_ne {k k' : κ} (hne : k' ≠ k) {f : α → α} (hf : ∀ x, key (f x) = key x)
    (l : List α) : lookup key k' (modify key k f l) = lookup key k' l := by
  induction l with
  | nil => rfl
  | cons y l ih =>
    by_cases hy : key y = k
    · have hy' : key y ≠ k' := fun h => hne (h.symm.trans hy)
      simpa [lookup, modify, hf, hy, hne, Ne.symm hne] using ih
    · by_cases hy' : key y = k'
      · simp [lookup, modify, hy', hne]
      · simpa [lookup, modify, hy, hy'] using ih

theorem modify_of_lookup_none {k : κ} {f : α → α} {l : List α} (h : lookup key k l = none) :
    modify key k f l = l := by
  rw [lookup_eq_none] at h
  conv_rhs => rw [← List.map_id l]
  apply List.map_congr_left
  intro x hx
  simp [h x hx]

theorem modify_modify_of_ne {k k' : κ} (hne : k ≠ k') {f g : α → α}
    (hf : ∀ x, key (f x) = key x) (hg : ∀ x, key (g x) = key x) (l : List α) :
    modify key k f (modify key k' g l) = modify key k' g (modify key k f l) := by
  simp only [modify, List.map_map]
  apply List.map_congr_left
  intro x _
  simp only [Function.comp_apply]
  by_cases hx : key x = k
  · have hx' : key x ≠ k' := fun h => hne (hx.symm.trans h)
    simp [hx, hf, hne]
  · by_cases hx' : key x = k'
    · simp [hx', hg, Ne.symm hne]
    · simp [hx, hx']

theorem mem_modify {k : κ} {f : α → α} {l : List α} {y : α} (h : y ∈ modify key k f l) :
    (y ∈ l ∧ key y ≠ k) ∨ ∃ x ∈ l, key x = k ∧ y = f x := by
  obtain ⟨x, hx, rfl⟩ := List.mem_map.mp h
  by_cases hk : key x = k
  · exact Or.inr ⟨x, hx, hk, by simp [hk]⟩
  · exact Or.inl (by simpa [hk] using hx)

theorem distinct_remove {k : κ} {l : List α} (hd : Distinct key l) :
    Distinct key (remove key k l) :=
  hd.sublist (List.filter_sublist.map key)

theorem lookup_remove_self (k : κ) (l : List α) : lookup key k (remove key k l) = none := by
  simp [lookup_eq_none, remove]

theorem lookup_remove_ne {k k' : κ} (hne : k' ≠ k) (l : List α) :
    lookup key k' (remove key k l) = lookup key k' l := by
  induction l with
  | nil => rfl
  | cons y l ih =>
    by_cases hy : key y = k
    · simpa [lookup, remove, hy, Ne.symm hne] using ih
    · by_cases hy' : key y = k'
      · simp [lookup, remove, hy', hne]
      · simpa [lookup, remove, hy, hy'] using ih

theorem mem_remove {k : κ} {l : List α} {y : α} :
    y ∈ remove key k l ↔ y ∈ l ∧ key y ≠ k := by simp [remove]

variable {p : α → Bool}

/-- An update moves a count by what it does to the one record it touches. -/
theorem countP_modify {k : κ} {f : α → α} {l : List α} (hd : Distinct key l) {x : α}
    (hx : lookup key k l = some x) :
    (modify key k f l).countP p + (if p x then 1 else 0) =
      l.countP p + (if p (f x) then 1 else 0) := by
  induction l with
  | nil => cases hx
  | cons y l ih =>
    rw [distinct_cons] at hd
    by_cases hy : key y = k
    · have hxy : y = x := by simpa [lookup, hy] using hx
      subst hxy
      have hl : lookup key k l = none := lookup_eq_none.mpr (hy ▸ hd.1)
      have hm := modify_of_lookup_none (f := f) hl
      simp only [modify, List.map_cons, hy, if_true, List.countP_cons] at hm ⊢
      rw [hm]
      omega
    · have hx' : lookup key k l = some x := by simpa [lookup, hy] using hx
      have := ih hd.2 hx'
      simp only [modify, List.map_cons, hy, if_false, List.countP_cons] at this ⊢
      omega

theorem countP_remove {k : κ} {l : List α} (hd : Distinct key l) {x : α}
    (hx : lookup key k l = some x) :
    (remove key k l).countP p + (if p x then 1 else 0) = l.countP p := by
  induction l with
  | nil => cases hx
  | cons y l ih =>
    rw [distinct_cons] at hd
    by_cases hy : key y = k
    · have hxy : y = x := by simpa [lookup, hy] using hx
      subst hxy
      have hl : remove key k l = l := by
        apply List.filter_eq_self.mpr
        intro z hz
        simpa [hy] using hd.1 z hz
      simp only [remove, ne_eq, decide_not] at hl
      simp [remove, hy, hl, List.countP_cons]
    · have hx' : lookup key k l = some x := by simpa [lookup, hy] using hx
      have := ih hd.2 hx'
      simp only [remove, List.filter_cons, ne_eq, hy, not_false_eq_true, decide_true, if_true,
        List.countP_cons] at this ⊢
      omega

/-- Values kept by key: changing the value of one record's key moves a count by that one. -/
theorem countP_update {β : Type*} {k : κ} {l : List α} (hd : Distinct key l)
    (hk : (lookup key k l).isSome) (f : κ → β) (b : β) (q : β → Bool) :
    l.countP (fun x => q (Function.update f k b (key x))) + (if q (f k) then 1 else 0) =
      l.countP (fun x => q (f (key x))) + (if q b then 1 else 0) := by
  induction l with
  | nil => cases hk
  | cons y l ih =>
    rw [distinct_cons] at hd
    rw [List.countP_cons, List.countP_cons]
    by_cases hy : key y = k
    · have hrest : l.countP (fun x => q (Function.update f k b (key x))) =
          l.countP fun x => q (f (key x)) := by
        apply List.countP_congr
        intro x hx
        have hne : key x ≠ k := hy ▸ hd.1 x hx
        rw [Function.update_of_ne hne]
      rw [hrest, hy, Function.update_self]
      omega
    · have hk' : (lookup key k l).isSome := by simpa [lookup, hy] using hk
      have hrest := ih hd.2 hk'
      rw [Function.update_of_ne hy]
      omega

end KeyedList
