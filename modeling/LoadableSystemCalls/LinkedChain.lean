import Mathlib.Data.List.AList
import Mathlib.Data.List.Basic
import Mathlib.Data.List.Perm.Subperm

/-! # Singly linked chains in a store of cells

A store maps addresses to cells; a chain is a null-terminated run of cells. The walks are
executable and bounded by a step count. A walk returns `none` when it reads an address
that holds no cell or outlasts its bound. -/
namespace LinkedChain

variable {κ α : Type*}

structure Cell (κ α : Type*) where
  value : α
  next : Option κ
  deriving DecidableEq, Repr

abbrev Store (κ α : Type*) := AList fun _ : κ => Cell κ α

variable [DecidableEq κ]

/-- The first cell from `curr` that passes the test, with the cell before it.
The test itself may fail, when it reads through the value. -/
def seek (st : Store κ α) (test : α → Option Bool) :
    ℕ → Option κ → Option κ → Option (Option (Option κ × κ × Cell κ α))
  | _, _, none => some none
  | 0, _, some _ => none
  | n + 1, prev, some a =>
    match st.lookup a with
    | none => none
    | some c =>
      match test c.value with
      | none => none
      | some true => some (some (prev, a, c))
      | some false => seek st test n (some a) c.next

def lastCell (st : Store κ α) : ℕ → Option κ → Option κ → Option (Option κ)
  | _, prev, none => some prev
  | 0, _, some _ => none
  | n + 1, _, some a =>
    match st.lookup a with
    | none => none
    | some c => lastCell st n (some a) c.next

def values (st : Store κ α) : ℕ → Option κ → Option (List α)
  | _, none => some []
  | 0, some _ => none
  | n + 1, some a =>
    match st.lookup a with
    | none => none
    | some c => (values st n c.next).map (c.value :: ·)

def setNext (st : Store κ α) (a : κ) (n : Option κ) : Option (Store κ α) :=
  (st.lookup a).map fun c => st.insert a ⟨c.value, n⟩

/-- The cells `l` are met, in order, on the way from `p` to `q`. -/
def Segment (st : Store κ α) : Option κ → List (κ × α) → Option κ → Prop
  | p, [], q => p = q
  | p, (a, x) :: l, q => p = some a ∧ ∃ n, st.lookup a = some ⟨x, n⟩ ∧ Segment st n l q

/-- A finite, acyclic, null-terminated chain with the given values. -/
def Holds (st : Store κ α) (p : Option κ) (xs : List α) : Prop :=
  ∃ l : List (κ × α), Segment st p l none ∧ (l.map Prod.fst).Nodup ∧ l.map Prod.snd = xs

variable {st st' : Store κ α}

theorem segment_append {l l' : List (κ × α)} {p r : Option κ} :
    Segment st p (l ++ l') r ↔ ∃ q, Segment st p l q ∧ Segment st q l' r := by
  induction l generalizing p with
  | nil => simp [Segment]
  | cons c l ih =>
    obtain ⟨a, x⟩ := c
    simp only [List.cons_append, Segment, ih]
    constructor
    · rintro ⟨hp, n, hn, q, hq, hr⟩
      exact ⟨q, ⟨hp, n, hn, hq⟩, hr⟩
    · rintro ⟨q, ⟨hp, n, hn, hq⟩, hr⟩
      exact ⟨hp, n, hn, q, hq, hr⟩

/-- A segment depends on nothing but the cells it passes. -/
theorem Segment.frame {l : List (κ × α)} {p q : Option κ} (h : Segment st p l q)
    (hf : ∀ a ∈ l.map Prod.fst, st'.lookup a = st.lookup a) : Segment st' p l q := by
  induction l generalizing p with
  | nil => exact h
  | cons c l ih =>
    obtain ⟨a, x⟩ := c
    obtain ⟨hp, n, hn, hl⟩ := h
    refine ⟨hp, n, ?_, ih hl fun b hb => hf b (by simp_all)⟩
    rw [hf a (by simp)]
    exact hn

theorem Segment.mem_keys {l : List (κ × α)} {p q : Option κ} (h : Segment st p l q) :
    ∀ a ∈ l.map Prod.fst, a ∈ st.keys := by
  induction l generalizing p with
  | nil => simp
  | cons c l ih =>
    obtain ⟨a, x⟩ := c
    obtain ⟨-, n, hn, hl⟩ := h
    intro b hb
    rcases List.mem_cons.mp hb with rfl | hb
    · exact AList.mem_keys.mp (AList.lookup_isSome.mp (by simp [hn]))
    · exact ih hl b hb

theorem Segment.length_le {l : List (κ × α)} {p q : Option κ} (h : Segment st p l q)
    (hd : (l.map Prod.fst).Nodup) : l.length ≤ st.keys.length := by
  have hs := (hd.subperm h.mem_keys).length_le
  simpa using hs

theorem seek_of_segment {test : α → Option Bool} {l : List (κ × α)} {p : Option κ}
    (h : Segment st p l none) {n : ℕ} (hn : l.length ≤ n) {prev : Option κ}
    (ht : ∀ x ∈ l.map Prod.snd, test x = some false) : seek st test n prev p = some none := by
  induction l generalizing p n prev with
  | nil =>
    obtain rfl : p = none := h
    simp [seek]
  | cons c l ih =>
    obtain ⟨a, x⟩ := c
    obtain ⟨rfl, m, hm, hl⟩ := h
    obtain ⟨n, rfl⟩ : ∃ k, n = k + 1 := ⟨n - 1, by simp at hn; omega⟩
    have hx : test x = some false := ht x (by simp)
    simp only [seek, hm, hx]
    exact ih hl (by simpa using hn) fun y hy => ht y (by simp_all)

theorem seek_of_split {test : α → Option Bool} {l l' : List (κ × α)} {a : κ} {x : α}
    {p m : Option κ} (h : Segment st p l (some a)) (ha : st.lookup a = some ⟨x, m⟩) {n : ℕ}
    (hn : (l ++ (a, x) :: l').length ≤ n) (prev : Option κ)
    (ht : ∀ y ∈ l.map Prod.snd, test y = some false) (hx : test x = some true) :
    seek st test n prev p = some (some ((l.getLast?.map Prod.fst).or prev, a, ⟨x, m⟩)) := by
  induction l generalizing p n prev with
  | nil =>
    obtain rfl : p = some a := h
    obtain ⟨n, rfl⟩ : ∃ k, n = k + 1 := ⟨n - 1, by simp at hn; omega⟩
    simp [seek, ha, hx]
  | cons c l ih =>
    obtain ⟨b, y⟩ := c
    obtain ⟨rfl, k, hk, hl⟩ := h
    obtain ⟨n, rfl⟩ : ∃ k, n = k + 1 := ⟨n - 1, by simp at hn; omega⟩
    have hy : test y = some false := ht y (by simp)
    simp only [seek, hk, hy]
    rw [ih hl (by simpa using hn) (some b) fun z hz => ht z (by simp_all)]
    cases l <;> simp [List.getLast?_cons]

theorem lastCell_of_segment {l : List (κ × α)} {p : Option κ} (h : Segment st p l none) {n : ℕ}
    (hn : l.length ≤ n) (prev : Option κ) :
    lastCell st n prev p = some ((l.getLast?.map Prod.fst).or prev) := by
  induction l generalizing p n prev with
  | nil =>
    obtain rfl : p = none := h
    simp [lastCell]
  | cons c l ih =>
    obtain ⟨a, x⟩ := c
    obtain ⟨rfl, m, hm, hl⟩ := h
    obtain ⟨n, rfl⟩ : ∃ k, n = k + 1 := ⟨n - 1, by simp at hn; omega⟩
    simp only [lastCell, hm]
    rw [ih hl (by simpa using hn) (some a)]
    cases l <;> simp [List.getLast?_cons]

theorem values_of_segment {l : List (κ × α)} {p : Option κ} (h : Segment st p l none) {n : ℕ}
    (hn : l.length ≤ n) : values st n p = some (l.map Prod.snd) := by
  induction l generalizing p n with
  | nil =>
    obtain rfl : p = none := h
    simp [values]
  | cons c l ih =>
    obtain ⟨a, x⟩ := c
    obtain ⟨rfl, m, hm, hl⟩ := h
    obtain ⟨n, rfl⟩ : ∃ k, n = k + 1 := ⟨n - 1, by simp at hn; omega⟩
    simp [values, hm, ih hl (by simpa using hn)]

theorem Holds.values {p : Option κ} {xs : List α} (h : Holds st p xs) :
    values st st.keys.length p = some xs := by
  obtain ⟨l, hl, hd, rfl⟩ := h
  exact values_of_segment hl (hl.length_le hd)

/-- A seek over a chain is `List.find?` over its values. -/
theorem Holds.seek {p : Option κ} {xs : List α} (h : Holds st p xs) (test : α → Option Bool)
    (t : α → Bool) (ht : ∀ x ∈ xs, test x = some (t x)) :
    (seek st test st.keys.length none p).map (·.map fun r => r.2.2.value) =
      some (xs.find? t) := by
  obtain ⟨l, hl, hd, rfl⟩ := h
  have hn := hl.length_le hd
  cases hf : (l.map Prod.snd).find? t with
  | none =>
    rw [seek_of_segment hl hn fun x hx => by
      rw [ht x hx]; simpa using List.find?_eq_none.mp hf x hx]
    rfl
  | some x =>
    obtain ⟨hx, as, bs, hab, has⟩ := List.find?_eq_some_iff_append.mp hf
    obtain ⟨l₁, l₂, rfl, rfl, hl₂⟩ := List.map_eq_append_iff.mp hab
    obtain ⟨c, l₃, rfl, rfl, -⟩ := List.map_eq_cons_iff.mp hl₂
    obtain ⟨q, hq, hc⟩ := segment_append.mp hl
    obtain ⟨a, x⟩ := c
    obtain ⟨rfl, m, hm, -⟩ := hc
    have before : ∀ y ∈ l₁.map Prod.snd, test y = some false := fun y hy => by
      rw [ht y (by rw [List.map_append]; exact List.mem_append_left _ hy)]
      simpa using has y hy
    have here : test x = some true := by
      rw [ht x (by simp)]
      simpa using hx
    rw [seek_of_split hq hm hn none before here]
    rfl

theorem Holds.singleton {a : κ} {x : α} (ha : st.lookup a = some ⟨x, none⟩) :
    Holds st (some a) [x] := ⟨[(a, x)], ⟨rfl, none, ha, rfl⟩, by simp, rfl⟩

theorem segment_insert_of_notMem {l : List (κ × α)} {p q : Option κ} (h : Segment st p l q)
    {a : κ} (ha : a ∉ l.map Prod.fst) (c : Cell κ α) : Segment (st.insert a c) p l q :=
  h.frame fun _ hb => AList.lookup_insert_ne fun e => ha (e ▸ hb)

theorem Segment.append_cell {l : List (κ × α)} {a b : κ} {x y : α} {p : Option κ}
    (h : Segment st p (l ++ [(b, y)]) none) (hd : ((l ++ [(b, y)]).map Prod.fst).Nodup)
    (ha : a ∉ (l ++ [(b, y)]).map Prod.fst) :
    Segment ((st.insert a ⟨x, none⟩).insert b ⟨y, some a⟩) p (l ++ [(b, y)] ++ [(a, x)]) none := by
  obtain ⟨q, hq, rfl, m, hm, rfl⟩ := segment_append.mp h
  have hb : b ∉ l.map Prod.fst := by
    intro hb
    simp only [List.map_append, List.map_cons, List.map_nil, List.nodup_append] at hd
    exact hd.2.2 b hb b (by simp) rfl
  have hab : a ≠ b := by rintro rfl; simp at ha
  have hl : Segment ((st.insert a ⟨x, none⟩).insert b ⟨y, some a⟩) p l (some b) :=
    segment_insert_of_notMem (segment_insert_of_notMem hq (by simp_all) _) hb _
  refine segment_append.mpr ⟨some a, segment_append.mpr ⟨some b, hl, rfl, some a, ?_, rfl⟩,
    rfl, none, ?_, rfl⟩
  · exact AList.lookup_insert _
  · rw [AList.lookup_insert_ne hab]
    exact AList.lookup_insert _

theorem Segment.erase_head {l : List (κ × α)} {a : κ} {x : α} {p m : Option κ}
    (h : Segment st p ((a, x) :: l) none) (hm : st.lookup a = some ⟨x, m⟩)
    (hd : (((a, x) :: l).map Prod.fst).Nodup) : Segment (st.erase a) m l none := by
  obtain ⟨-, n, hn, hl⟩ := h
  obtain rfl : n = m := by simpa using hn.symm.trans hm
  simp only [List.map_cons, List.nodup_cons] at hd
  exact hl.frame fun b hb => AList.lookup_erase_ne fun e => hd.1 (e ▸ hb)

theorem Segment.erase_middle {l l' : List (κ × α)} {a b : κ} {x y : α} {p m : Option κ}
    (h : Segment st p (l ++ (b, y) :: (a, x) :: l') none) (hm : st.lookup a = some ⟨x, m⟩)
    (hd : ((l ++ (b, y) :: (a, x) :: l').map Prod.fst).Nodup) :
    Segment ((st.insert b ⟨y, m⟩).erase a) p (l ++ (b, y) :: l') none := by
  obtain ⟨q, hq, rfl, k, hk, rfl, n, hn, hl⟩ := segment_append.mp h
  obtain rfl : n = m := by simpa using hn.symm.trans hm
  simp only [List.map_append, List.map_cons, List.nodup_append, List.nodup_cons,
    List.mem_cons, not_or] at hd
  obtain ⟨-, ⟨⟨hba, hb'⟩, ha', -⟩, hdisj⟩ := hd
  have frame : ∀ c, c ≠ a → c ≠ b →
      ((st.insert b ⟨y, n⟩).erase a).lookup c = st.lookup c := fun c hca hcb => by
    rw [AList.lookup_erase_ne hca, AList.lookup_insert_ne hcb]
  refine segment_append.mpr ⟨some b, ?_, rfl, n, ?_, ?_⟩
  · exact hq.frame fun c hc => frame c (hdisj c hc a (by simp)) (hdisj c hc b (by simp))
  · rw [AList.lookup_erase_ne hba]
    exact AList.lookup_insert _
  · exact hl.frame fun c hc => frame c (fun e => ha' (e ▸ hc)) (fun e => hb' (e ▸ hc))

end LinkedChain
