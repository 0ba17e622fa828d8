import Mathlib.Data.List.AList
import LoadableSystemCalls.KeyedList

/-! # Cells with one owner each

A table of owners, each with a pointer that may be null, into a heap of cells. Memory is in
order when every pointer leads to a cell, no two owners share one, and every cell has an
owner. -/
namespace OwnedCells

variable {κ V : Type*} [DecidableEq κ]

@[ext] structure Table (κ V : Type*) where
  owners : List (κ × Option ℕ)
  cells : AList fun _ : ℕ => V

namespace Table
variable (t : Table κ V)

def pointer (k : κ) : Option (Option ℕ) := (KeyedList.lookup Prod.fst k t.owners).map Prod.snd

def contents : List (κ × Option V) := t.owners.map fun o => (o.1, o.2.bind t.cells.lookup)

def repoint (k : κ) (q : Option ℕ) : Table κ V :=
  { t with owners := KeyedList.modify Prod.fst k (fun o => (o.1, q)) t.owners }

def fill (a : ℕ) (v : V) : Table κ V := { t with cells := t.cells.insert a v }

def store (a : ℕ) (v : V) : Option (Table κ V) := (t.cells.lookup a).map fun _ => t.fill a v

/-- Freeing a cell that is not there is an error. -/
def free (a : ℕ) : Option (Table κ V) :=
  (t.cells.lookup a).map fun _ => { t with cells := t.cells.erase a }

def add (k : κ) (q : Option ℕ) : Table κ V := { t with owners := t.owners ++ [(k, q)] }

def remove (k : κ) : Table κ V := { t with owners := KeyedList.remove Prod.fst k t.owners }

end Table

structure Owned (t : Table κ V) : Prop where
  keys : KeyedList.Distinct Prod.fst t.owners
  live : ∀ o ∈ t.owners, ∀ a, o.2 = some a → (t.cells.lookup a).isSome
  single : ∀ o ∈ t.owners, ∀ o' ∈ t.owners, ∀ a, o.2 = some a → o'.2 = some a → o = o'
  covered : ∀ a, (t.cells.lookup a).isSome → ∃ o ∈ t.owners, o.2 = some a

/-- The owner `k` takes the pointer `q` and the cells become `cells`: the others keep their
cells, and `q` is the only other cell. -/
structure Moves (t : Table κ V) (k : κ) (q : Option ℕ) (cells : AList fun _ : ℕ => V) : Prop where
  frame : ∀ o ∈ t.owners, o.1 ≠ k → ∀ a, o.2 = some a → cells.lookup a = t.cells.lookup a
  live : ∀ a, q = some a → (cells.lookup a).isSome
  own : ∀ a, q = some a → ∀ o ∈ t.owners, o.1 ≠ k → o.2 ≠ some a
  covered : ∀ a, (cells.lookup a).isSome →
    q = some a ∨ ∃ o ∈ t.owners, o.1 ≠ k ∧ o.2 = some a

section
variable {t : Table κ V} {k : κ} {q : Option ℕ} {cells : AList fun _ : ℕ => V} {a : ℕ}

theorem mem_of_pointer (hk : t.pointer k = some q) : (k, q) ∈ t.owners := by
  obtain ⟨o, ho, rfl⟩ := Option.map_eq_some_iff.mp hk
  obtain ⟨hmem, rfl⟩ := KeyedList.mem_of_lookup ho
  exact hmem

theorem Owned.pointer_of_mem (h : Owned t) {o : κ × Option ℕ} (ho : o ∈ t.owners) :
    t.pointer o.1 = some o.2 := by
  rw [Table.pointer, KeyedList.lookup_of_mem h.keys ho, Option.map_some]

theorem pointer_eq_none : t.pointer k = none ↔ ∀ o ∈ t.owners, o.1 ≠ k := by
  rw [Table.pointer, Option.map_eq_none_iff, KeyedList.lookup_eq_none]

theorem contents_lookup (k : κ) : KeyedList.lookup Prod.fst k t.contents =
    (t.pointer k).map fun q => (k, q.bind t.cells.lookup) := by
  have hmap : KeyedList.lookup Prod.fst k t.contents =
      (KeyedList.lookup Prod.fst k t.owners).map fun o => (o.1, o.2.bind t.cells.lookup) := by
    rw [Table.contents, KeyedList.lookup, KeyedList.lookup, List.find?_map]
    rfl
  rw [hmap, Table.pointer]
  cases ho : KeyedList.lookup Prod.fst k t.owners with
  | none => rfl
  | some o =>
    obtain ⟨-, rfl⟩ := KeyedList.mem_of_lookup ho
    rfl

theorem Moves.contents (h : Moves t k q cells) :
    ({ t with cells := cells }.repoint k q).contents =
      KeyedList.modify Prod.fst k (fun o => (o.1, q.bind cells.lookup)) t.contents := by
  simp only [Table.contents, Table.repoint, KeyedList.modify, List.map_map]
  apply List.map_congr_left
  intro o ho
  by_cases hk : o.1 = k
  · simp [hk]
  · cases hp : o.2 with
    | none => simp [hk, hp]
    | some a => simp [hk, hp, h.frame o ho hk a hp]

theorem Moves.owned (h : Moves t k q cells) (ht : Owned t) (hk : (t.pointer k).isSome) :
    Owned ({ t with cells := cells }.repoint k q) := by
  have hkey : ∀ o : κ × Option ℕ, Prod.fst (o.1, q) = o.1 := fun _ => rfl
  have hsplit : ∀ {o}, o ∈ KeyedList.modify Prod.fst k (fun o => (o.1, q)) t.owners →
      (o ∈ t.owners ∧ o.1 ≠ k) ∨ o = (k, q) := by
    intro o ho
    rcases KeyedList.mem_modify ho with hold | ⟨o', -, hk', rfl⟩
    · exact Or.inl hold
    · exact Or.inr (by rw [hk'])
  refine ⟨(KeyedList.distinct_modify hkey).mpr ht.keys, ?_, ?_, ?_⟩
  · intro o ho a ha
    rcases hsplit ho with ⟨ho, hne⟩ | rfl
    · change (cells.lookup a).isSome
      rw [h.frame o ho hne a ha]
      exact ht.live o ho a ha
    · exact h.live a ha
  · intro o ho o' ho' a ha ha'
    rcases hsplit ho with ⟨ho, hne⟩ | rfl
    · rcases hsplit ho' with ⟨ho', -⟩ | rfl
      · exact ht.single o ho o' ho' a ha ha'
      · exact absurd ha (h.own a ha' o ho hne)
    · rcases hsplit ho' with ⟨ho', hne'⟩ | rfl
      · exact absurd ha' (h.own a ha o' ho' hne')
      · rfl
  · intro a ha
    obtain ⟨p, hp⟩ := Option.isSome_iff_exists.mp hk
    have hmem : ∀ o ∈ t.owners, (if o.1 = k then (o.1, q) else o) ∈
        KeyedList.modify Prod.fst k (fun o => (o.1, q)) t.owners :=
      fun o ho => List.mem_map_of_mem ho
    rcases h.covered a ha with hq | ⟨o, ho, hne, hoa⟩
    · have hself := hmem (k, p) (mem_of_pointer hp)
      rw [if_pos rfl] at hself
      exact ⟨(k, q), hself, hq⟩
    · have hother := hmem o ho
      rw [if_neg hne] at hother
      exact ⟨o, hother, hoa⟩

theorem repoint_self (h : KeyedList.Distinct Prod.fst t.owners) (hk : t.pointer k = some q) :
    t.repoint k q = t := by
  ext1
  · refine (List.map_congr_left fun o ho => ?_).trans (List.map_id _)
    by_cases he : o.1 = k
    · subst he
      rw [Table.pointer, KeyedList.lookup_of_mem h ho, Option.map_some] at hk
      rw [if_pos rfl, ← Option.some.inj hk]
      rfl
    · rw [if_neg he]
      rfl
  · rfl

theorem moves_alloc (h : Owned t) (hk : t.pointer k = some none) (ha : t.cells.lookup a = none)
    (v : V) : Moves t k (some a) (t.cells.insert a v) := by
  have hfresh : ∀ o ∈ t.owners, o.2 ≠ some a := by
    intro o ho hoa
    simpa [ha] using h.live o ho a hoa
  refine ⟨?_, ?_, ?_, ?_⟩
  · intro o ho _ b hb
    have hne : b ≠ a := fun e => hfresh o ho (e ▸ hb)
    exact AList.lookup_insert_ne hne
  · intro b hb
    obtain rfl := Option.some.inj hb
    simp
  · intro b hb o ho _
    obtain rfl := Option.some.inj hb
    exact hfresh o ho
  · intro b hb
    by_cases hba : b = a
    · exact Or.inl (by rw [hba])
    · rw [AList.lookup_insert_ne hba] at hb
      obtain ⟨o, ho, hob⟩ := h.covered b hb
      refine Or.inr ⟨o, ho, ?_, hob⟩
      rintro rfl
      rw [h.pointer_of_mem ho, hob] at hk
      cases hk

theorem other_cell (h : Owned t) (hk : t.pointer k = some (some a)) {o : κ × Option ℕ}
    (ho : o ∈ t.owners) (hne : o.1 ≠ k) : o.2 ≠ some a := fun hoa =>
  hne (congrArg Prod.fst (h.single o ho (k, some a) (mem_of_pointer hk) a hoa rfl))

/-- An owner writes its own cell. -/
theorem moves_store (h : Owned t) (hk : t.pointer k = some (some a)) (v : V) :
    Moves t k (some a) (t.cells.insert a v) := by
  refine ⟨?_, ?_, ?_, ?_⟩
  · intro o ho hne b hb
    have hba : b ≠ a := fun e => other_cell h hk ho hne (e ▸ hb)
    exact AList.lookup_insert_ne hba
  · intro b hb
    obtain rfl := Option.some.inj hb
    simp
  · intro b hb o ho hne
    obtain rfl := Option.some.inj hb
    exact other_cell h hk ho hne
  · intro b hb
    by_cases hba : b = a
    · exact Or.inl (by rw [hba])
    · rw [AList.lookup_insert_ne hba] at hb
      obtain ⟨o, ho, hob⟩ := h.covered b hb
      refine Or.inr ⟨o, ho, ?_, hob⟩
      rintro rfl
      rw [h.pointer_of_mem ho, hob] at hk
      exact hba (Option.some.inj (Option.some.inj hk))

/-- An owner frees its own cell and forgets it. -/
theorem moves_free (h : Owned t) (hk : t.pointer k = some (some a)) :
    Moves t k none (t.cells.erase a) := by
  refine ⟨?_, ?_, ?_, ?_⟩
  · intro o ho hne b hb
    have hba : b ≠ a := fun e => other_cell h hk ho hne (e ▸ hb)
    exact AList.lookup_erase_ne hba
  · intro b hb
    cases hb
  · intro b hb
    cases hb
  · intro b hb
    have hba : b ≠ a := by
      rintro rfl
      simp at hb
    rw [AList.lookup_erase_ne hba] at hb
    obtain ⟨o, ho, hob⟩ := h.covered b hb
    refine Or.inr ⟨o, ho, ?_, hob⟩
    rintro rfl
    rw [h.pointer_of_mem ho, hob] at hk
    exact hba (Option.some.inj (Option.some.inj hk))

theorem owned_add (h : Owned t) (hk : t.pointer k = none) : Owned (t.add k none) := by
  rw [pointer_eq_none] at hk
  have hsplit : ∀ {o}, o ∈ t.owners ++ [(k, (none : Option ℕ))] → ∀ a, o.2 = some a →
      o ∈ t.owners := by
    intro o ho a ha
    rcases List.mem_append.mp ho with ho | ho
    · exact ho
    · obtain rfl := List.mem_singleton.mp ho
      cases ha
  refine ⟨?_, fun o ho a ha => h.live o (hsplit ho a ha) a ha, ?_, ?_⟩
  · simp only [KeyedList.Distinct, Table.add, List.map_append, List.map_cons, List.map_nil,
      List.nodup_append]
    refine ⟨h.keys, by simp, ?_⟩
    intro x hx y hy
    obtain ⟨o, ho, rfl⟩ := List.mem_map.mp hx
    rw [List.mem_singleton.mp hy]
    exact hk o ho
  · intro o ho o' ho' a ha ha'
    exact h.single o (hsplit ho a ha) o' (hsplit ho' a ha') a ha ha'
  · intro a ha
    obtain ⟨o, ho, hoa⟩ := h.covered a ha
    exact ⟨o, List.mem_append_left _ ho, hoa⟩

theorem Moves.contents_add (h : Moves (t.add k none) k q cells) (hk : t.pointer k = none) :
    ({ t.add k none with cells := cells }.repoint k q).contents =
      t.contents ++ [(k, q.bind cells.lookup)] := by
  have hadd : (t.add k none).contents = t.contents ++ [(k, none)] := by
    simp [Table.contents, Table.add]
  have hnone : KeyedList.lookup Prod.fst k t.contents = none := by
    rw [contents_lookup, hk, Option.map_none]
  have hold := KeyedList.modify_of_lookup_none (f := fun o => (o.1, q.bind cells.lookup)) hnone
  rw [KeyedList.modify] at hold
  rw [h.contents, hadd, KeyedList.modify, List.map_append, hold]
  simp

theorem owned_remove (h : Owned t) (hk : t.pointer k = some none) : Owned (t.remove k) := by
  refine ⟨KeyedList.distinct_remove h.keys, ?_, ?_, ?_⟩
  · intro o ho a ha
    exact h.live o (KeyedList.mem_remove.mp ho).1 a ha
  · intro o ho o' ho' a ha ha'
    exact h.single o (KeyedList.mem_remove.mp ho).1 o' (KeyedList.mem_remove.mp ho').1 a ha ha'
  · intro a ha
    obtain ⟨o, ho, hoa⟩ := h.covered a ha
    refine ⟨o, KeyedList.mem_remove.mpr ⟨ho, ?_⟩, hoa⟩
    rintro rfl
    rw [h.pointer_of_mem ho, hoa] at hk
    cases hk

theorem contents_remove (k : κ) :
    (t.remove k).contents = KeyedList.remove Prod.fst k t.contents := by
  simp only [Table.contents, Table.remove, KeyedList.remove, List.filter_map]
  rfl

omit [DecidableEq κ] in
theorem Owned.count (h : Owned t) :
    t.cells.keys.length = t.owners.countP fun o => o.2.isSome := by
  have hcount : (t.owners.filterMap Prod.snd).length = t.owners.countP fun o => o.2.isSome :=
    List.length_filterMap_eq_countP
  have hnodup : (t.owners.filterMap Prod.snd).Nodup := by
    rw [List.Nodup, List.pairwise_filterMap]
    refine (List.Nodup.of_map _ h.keys).imp_of_mem ?_
    rintro o o' ho ho' hne a ha b hb rfl
    exact hne (h.single o ho o' ho' a ha hb)
  rw [← hcount]
  refine List.Perm.length_eq ((List.perm_ext_iff_of_nodup t.cells.keys_nodup hnodup).mpr ?_)
  intro a
  rw [List.mem_filterMap]
  constructor
  · intro ha
    have hsome : (t.cells.lookup a).isSome := AList.lookup_isSome.mpr ha
    obtain ⟨o, ho, hoa⟩ := h.covered a hsome
    exact ⟨o, ho, hoa⟩
  · rintro ⟨o, ho, hoa⟩
    exact AList.lookup_isSome.mp (h.live o ho a hoa)

end

end OwnedCells
