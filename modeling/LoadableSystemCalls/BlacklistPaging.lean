import LoadableSystemCalls.FileScan

/-! # Paging of the blacklist (anti_module.c)

remove_garbage_value cuts a page behind its last line, and pages of whole lines are what it
leaves of a file of lines. -/
namespace BlacklistPaging

open CStrings KernelTypes

abbrev Line := List Byte

/-- The loop that looks for the last newline or terminator; it stops at index 0 anyway. -/
def backTo (data : List Byte) : ℕ → ℕ
  | 0 => 0
  | i + 1 =>
    if data[i + 1]? = some 10 ∨ data[i + 1]? = some 0 then i + 1 else backTo data i

/-- The cut page and its length, for the `recordsize` bytes just read. -/
def removeGarbageValue (data : List Byte) (recordsize : ℤ) : Option (List Byte × ℕ) :=
  if recordsize - 1 < 0 then none
  else
    match data[(recordsize - 1).toNat]? with
    | none => none
    | some c =>
      let i := if c ≠ 10 ∧ c ≠ 0 then backTo data (recordsize - 1).toNat
        else (recordsize - 1).toNat
      let cut := if i + 1 < pageSize ∧ data[i]? ≠ some 0 then data.set (i + 1) 0 else data
      (strlen cut).map fun n => (cut, n)

def Plain (l : List Byte) : Prop := NulFree l ∧ 10 ∉ l

instance (l : List Byte) : Decidable (Plain l) := inferInstanceAs (Decidable (NulFree l ∧ 10 ∉ l))

theorem Plain.subset {l m : List Byte} (h : Plain l) (hm : m ⊆ l) : Plain m :=
  ⟨fun hmem => h.1 (hm hmem), fun hmem => h.2 (hm hmem)⟩

theorem Plain.append {l m : List Byte} (h : Plain l) (hm : Plain m) : Plain (l ++ m) := by
  refine ⟨h.1.append hm.1, fun hmem => ?_⟩
  rcases List.mem_append.mp hmem with hl | hr
  · exact h.2 hl
  · exact hm.2 hr

theorem Plain.cons {c : Byte} {l : List Byte} (hc : c ≠ 0 ∧ c ≠ 10) (h : Plain l) :
    Plain (c :: l) := by
  constructor
  · intro hmem
    rcases List.mem_cons.mp hmem with heq | hmem
    · exact hc.1 heq.symm
    · exact h.1 hmem
  · intro hmem
    rcases List.mem_cons.mp hmem with heq | hmem
    · exact hc.2 heq.symm
    · exact h.2 hmem

def render (ls : List Line) : List Byte := ls.flatMap (· ++ [10])

@[simp] theorem render_nil : render [] = [] := rfl

@[simp] theorem render_cons (l : Line) (ls : List Line) :
    render (l :: ls) = l ++ 10 :: render ls := by simp [render]

theorem render_append (ls ms : List Line) : render (ls ++ ms) = render ls ++ render ms := by
  simp [render]

theorem render_nulFree {ls : List Line} (h : ∀ l ∈ ls, Plain l) : NulFree (render ls) := by
  intro hmem
  rcases List.mem_flatMap.mp hmem with ⟨l, hl, hmem⟩
  exact (h l hl).1.append (by decide) hmem

theorem render_injective {ls ms : List Line} (hl : ∀ l ∈ ls, 10 ∉ l) (hm : ∀ l ∈ ms, 10 ∉ l)
    (h : render ls = render ms) : ls = ms := by
  induction ls generalizing ms with
  | nil =>
    cases ms with
    | nil => rfl
    | cons m ms => simp at h
  | cons l ls ih =>
    cases ms with
    | nil => simp at h
    | cons m ms =>
      rw [render_cons, render_cons] at h
      obtain ⟨hline, hrest⟩ := delimited_inj (hl l List.mem_cons_self) (hm m List.mem_cons_self) h
      have hls := ih (fun x hx => hl x (List.mem_cons_of_mem l hx))
        (fun x hx => hm x (List.mem_cons_of_mem m hx)) hrest
      rw [hline, hls]

theorem length_lt_render {ls : List Line} {l : Line} (h : l ∈ ls) :
    l.length < (render ls).length := by
  rcases List.append_of_mem h with ⟨before, after, rfl⟩
  simp only [render_append, render_cons, List.length_append, List.length_cons]
  omega

theorem removeGarbageValue_length {data page : List Byte} {recordsize : ℤ} {n : ℕ}
    (h : removeGarbageValue data recordsize = some (page, n)) : page.length = data.length := by
  unfold removeGarbageValue at h
  split at h
  · cases h
  · split at h
    · cases h
    · rcases Option.map_eq_some_iff.mp h with ⟨m, -, heq⟩
      rw [← (Prod.mk.inj heq).1, apply_ite List.length, List.length_set, ite_self]

theorem backTo_eq {data : List Byte} {i j : ℕ} (hj : j = 0 ∨ data[j]? = some 10) (hij : j ≤ i)
    (h : ∀ x, j < x → x ≤ i → data[x]? ≠ some 10 ∧ data[x]? ≠ some 0) : backTo data i = j := by
  induction i with
  | zero =>
    obtain rfl : j = 0 := by omega
    rfl
  | succ i ih =>
    rw [backTo]
    rcases Nat.lt_or_eq_of_le hij with hlt | rfl
    · rcases h (i + 1) hlt le_rfl with ⟨hnl, hnul⟩
      rw [if_neg (not_or.mpr ⟨hnl, hnul⟩)]
      exact ih (by omega) fun x hx hxi => h x hx (by omega)
    · rw [if_pos (Or.inl (hj.resolve_left (by omega)))]

theorem strlen_cut {front rest : List Byte} (hf : NulFree front) (hr : rest ≠ []) :
    (front ++ rest).set front.length 0 = front ++ 0 :: rest.tail ∧
      strlen (front ++ 0 :: rest.tail) = some front.length := by
  constructor
  · rw [List.set_append_right _ _ le_rfl, Nat.sub_self]
    rcases List.exists_cons_of_ne_nil hr with ⟨x, rest, rfl⟩
    rfl
  · rw [strlen_append hf, strlen_zero]
    rfl

theorem render_concat (l : Line) (p : List Line) : ∃ front, render (l :: p) = front ++ [10] := by
  induction p generalizing l with
  | nil => exact ⟨l, by simp⟩
  | cons m p ih =>
    rcases ih m with ⟨front, hfront⟩
    exact ⟨l ++ 10 :: front, by rw [render_cons, hfront]; simp⟩

theorem plain_getElem {part : List Byte} (h : Plain part) {i : ℕ} :
    part[i]? ≠ some 10 ∧ part[i]? ≠ some 0 :=
  ⟨fun he => h.2 (List.mem_of_getElem? he), fun he => h.1 (List.mem_of_getElem? he)⟩

theorem cut_index {front part stale : List Byte} (hpart : Plain part) {c : Byte}
    (hc : (front ++ 10 :: part ++ stale)[front.length + part.length]? = some c) :
    (if c ≠ 10 ∧ c ≠ 0 then backTo (front ++ 10 :: part ++ stale) (front.length + part.length)
      else front.length + part.length) = front.length := by
  have hat : ∀ i, i ≤ part.length →
      (front ++ 10 :: part ++ stale)[front.length + i]? = (10 :: part)[i]? := by
    intro i hi
    rw [List.append_assoc, List.getElem?_append_right (by omega), Nat.add_sub_cancel_left,
      List.getElem?_append_left (by rw [List.length_cons]; omega)]
  have hnewline : (front ++ 10 :: part ++ stale)[front.length]? = some 10 := hat 0 (Nat.zero_le _)
  have hbehind : ∀ x, front.length < x → x ≤ front.length + part.length →
      (front ++ 10 :: part ++ stale)[x]? ≠ some 10 ∧
        (front ++ 10 :: part ++ stale)[x]? ≠ some 0 := by
    intro x hx hxi
    obtain ⟨y, rfl⟩ : ∃ y, x = front.length + (y + 1) := ⟨x - front.length - 1, by omega⟩
    rw [hat (y + 1) (by omega)]
    exact plain_getElem hpart
  by_cases hempty : part.length = 0
  · rw [hempty] at hc ⊢
    obtain rfl : 10 = c := Option.some.inj (hnewline.symm.trans hc)
    rfl
  · rcases hbehind (front.length + part.length) (by omega) le_rfl with ⟨hnl, hnul⟩
    rw [hc] at hnl hnul
    rw [if_pos ⟨fun he => hnl (congrArg some he), fun he => hnul (congrArg some he)⟩]
    exact backTo_eq (Or.inr hnewline) (Nat.le_add_right _ _) hbehind

/-- The bytes read are whole lines and a part of the next one: the page is cut behind the
lines, if there is room for the terminator. -/
theorem removeGarbageValue_lines {l : Line} {p : List Line} {part stale : List Byte}
    (hl : ∀ x ∈ l :: p, Plain x) (hpart : Plain part)
    (hsize : (render (l :: p) ++ part ++ stale).length = pageSize) :
    removeGarbageValue (render (l :: p) ++ part ++ stale) (render (l :: p) ++ part).length =
      if (render (l :: p)).length = pageSize then none
      else some (render (l :: p) ++ 0 :: (part ++ stale).tail, (render (l :: p)).length) := by
  have hnul := render_nulFree hl
  rcases render_concat l p with ⟨front, hfront⟩
  rw [hfront] at hnul hsize ⊢
  have hdata : front ++ [10] ++ part ++ stale = front ++ 10 :: part ++ stale := by simp
  have hlast : (((front ++ [10] ++ part).length : ℤ) - 1).toNat = front.length + part.length := by
    simp only [List.length_append, List.length_cons, List.length_nil]
    omega
  have hpos : ¬ ((front ++ [10] ++ part).length : ℤ) - 1 < 0 := by
    simp only [List.length_append, List.length_cons, List.length_nil]
    omega
  obtain ⟨c, hc⟩ : ∃ c, (front ++ 10 :: part ++ stale)[front.length + part.length]? = some c := by
    refine ⟨_, List.getElem?_eq_getElem ?_⟩
    simp only [List.length_append, List.length_cons]
    omega
  have hcut := cut_index hpart hc
  have hnewline : (front ++ 10 :: part ++ stale)[front.length]? = some 10 := by
    rw [List.append_assoc, List.getElem?_append_right le_rfl, Nat.sub_self]
    rfl
  have hlen : (front ++ [10]).length = front.length + 1 := List.length_append
  unfold removeGarbageValue
  rw [if_neg hpos, hlast, hdata, hc]
  simp only [hcut, hnewline]
  rw [hlen]
  by_cases hfull : front.length + 1 = pageSize
  · have hnone : part ++ stale = [] := by
      rw [← List.length_eq_zero_iff, List.length_append]
      simp only [List.length_append, hlen] at hsize
      omega
    have hwhole : front ++ 10 :: part ++ stale = front ++ [10] := by
      rw [← hdata, List.append_assoc, hnone, List.append_nil]
    rw [if_pos hfull, if_neg (fun h => by omega), hwhole, strlen_nulFree hnul]
    rfl
  · have hroom : part ++ stale ≠ [] := by
      intro hnone
      rw [List.append_assoc, hnone, List.append_nil, hlen] at hsize
      exact hfull hsize
    have hlt : front.length + 1 < pageSize := by
      simp only [List.length_append, hlen] at hsize
      omega
    rcases strlen_cut hnul hroom with ⟨hset, hstrlen⟩
    rw [hlen] at hset hstrlen
    rw [if_neg hfull, if_pos ⟨hlt, by decide⟩, ← hdata, List.append_assoc, hset, hstrlen]
    rfl

/-- The bytes read hold no line end: only the first byte is kept. -/
theorem removeGarbageValue_part {c : Byte} {part stale : List Byte} (hpart : Plain (c :: part))
    (hsize : (c :: part ++ stale).length = pageSize) :
    removeGarbageValue (c :: part ++ stale) (c :: part).length =
      some (c :: 0 :: (part ++ stale).tail, 1) := by
  have hat : ∀ i, i ≤ part.length → (c :: part ++ stale)[i]? = (c :: part)[i]? := by
    intro i hi
    exact List.getElem?_append_left (by rw [List.length_cons]; omega)
  have hlast : (((c :: part).length : ℤ) - 1).toNat = part.length := by
    simp only [List.length_cons]
    omega
  have hpos : ¬ ((c :: part).length : ℤ) - 1 < 0 := by
    simp only [List.length_cons]
    omega
  obtain ⟨x, hx⟩ : ∃ x, (c :: part)[part.length]? = some x :=
    ⟨_, List.getElem?_eq_getElem (Nat.lt_succ_self _)⟩
  have hplain : x ≠ 10 ∧ x ≠ 0 := by
    rcases plain_getElem hpart (i := part.length) with ⟨hnl, hnul⟩
    rw [hx] at hnl hnul
    exact ⟨fun he => hnl (congrArg some he), fun he => hnul (congrArg some he)⟩
  have hback : backTo (c :: part ++ stale) part.length = 0 := by
    apply backTo_eq (Or.inl rfl) (Nat.zero_le _)
    intro i _ hi
    rw [hat i hi]
    exact plain_getElem hpart
  have hc : c ≠ 0 := by
    rintro rfl
    exact hpart.1 List.mem_cons_self
  have hroom : part ++ stale ≠ [] := by
    intro hnone
    rw [List.cons_append, hnone] at hsize
    cases hsize
  have hfront : NulFree [c] := by simpa [NulFree] using hc.symm
  rcases strlen_cut hfront hroom with ⟨hset, hstrlen⟩
  unfold removeGarbageValue
  rw [if_neg hpos, hlast, hat _ le_rfl, hx]
  simp only [if_pos hplain, hback]
  have hcut : (c :: part ++ stale).set (0 + 1) 0 = c :: 0 :: (part ++ stale).tail := hset
  have hone : strlen (c :: 0 :: (part ++ stale).tail) = some 1 := hstrlen
  rw [if_pos ⟨by decide, by simpa using hc⟩, hcut, hone]
  rfl

def fill : ℕ → List Line → List Line × List Line
  | _, [] => ([], [])
  | room, l :: ls =>
    if l.length + 1 ≤ room then
      let r := fill (room - (l.length + 1)) ls
      (l :: r.1, r.2)
    else ([], l :: ls)

theorem fill_append (room : ℕ) (ls : List Line) : (fill room ls).1 ++ (fill room ls).2 = ls := by
  induction ls generalizing room with
  | nil => rfl
  | cons l ls ih =>
    rw [fill]
    split
    · exact congrArg (l :: ·) (ih _)
    · rfl

theorem fill_fits (room : ℕ) (ls : List Line) : (render (fill room ls).1).length ≤ room := by
  induction ls generalizing room with
  | nil => simp [fill]
  | cons l ls ih =>
    rw [fill]
    split
    · next hle =>
      have := ih (room - (l.length + 1))
      simp only [render_cons, List.length_append, List.length_cons]
      omega
    · simp

theorem fill_next {room : ℕ} {ls : List Line} {m : Line} {rest : List Line}
    (h : (fill room ls).2 = m :: rest) :
    room < (render (fill room ls).1).length + m.length + 1 := by
  induction ls generalizing room with
  | nil => cases h
  | cons l ls ih =>
    rw [fill] at h ⊢
    split at h
    · next hle =>
      rw [if_pos hle]
      have := ih h
      simp only [render_cons, List.length_append, List.length_cons]
      omega
    · next hle =>
      obtain ⟨rfl, -⟩ := List.cons_eq_cons.mp h
      rw [if_neg hle]
      simp only [render_nil, List.length_nil]
      omega

theorem fill_cons {l : Line} {ls : List Line} {room : ℕ} (h : l.length + 1 ≤ room) :
    ∃ p, (fill room (l :: ls)).1 = l :: p ∧ (fill room (l :: ls)).2.length ≤ ls.length := by
  refine ⟨(fill (room - (l.length + 1)) ls).1, by rw [fill, if_pos h], ?_⟩
  have happ := congrArg List.length (fill_append (room - (l.length + 1)) ls)
  rw [List.length_append] at happ
  rw [fill, if_pos h]
  simp only
  omega

/-- The pages the code reads of a file of lines: whole lines while they fit; a line that
fits no page is its own. -/
def paginate : List Line → List (List Line)
  | [] => []
  | l :: ls =>
    if h : l.length + 1 ≤ pageSize then
      have := (@fill_cons l ls pageSize h).choose_spec.2
      (fill pageSize (l :: ls)).1 :: paginate (fill pageSize (l :: ls)).2
    else [l] :: paginate ls
  termination_by ls => ls.length

theorem paginate_short {l : Line} {ls : List Line} (h : l.length + 1 ≤ pageSize) :
    paginate (l :: ls) =
      (fill pageSize (l :: ls)).1 :: paginate (fill pageSize (l :: ls)).2 := by
  rw [paginate, dif_pos h]

theorem paginate_long {l : Line} {ls : List Line} (h : ¬ l.length + 1 ≤ pageSize) :
    paginate (l :: ls) = [l] :: paginate ls := by
  rw [paginate, dif_neg h]

theorem paginate_flatten (ls : List Line) : (paginate ls).flatten = ls := by
  generalize hcount : ls.length = count
  induction count using Nat.strong_induction_on generalizing ls with
  | _ count ih =>
    cases ls with
    | nil => rw [paginate, List.flatten_nil]
    | cons l ls =>
      rw [List.length_cons] at hcount
      by_cases hl : l.length + 1 ≤ pageSize
      · rcases @fill_cons l ls pageSize hl with ⟨-, -, hfewer⟩
        rw [paginate_short hl, List.flatten_cons, ih _ (by omega) _ rfl, fill_append]
      · rw [paginate_long hl, List.flatten_cons, ih _ (by omega) _ rfl]
        rfl

theorem fill_all {room : ℕ} {ls : List Line} (h : (render ls).length ≤ room) :
    fill room ls = (ls, []) := by
  induction ls generalizing room with
  | nil => rfl
  | cons l ls ih =>
    simp only [render_cons, List.length_append, List.length_cons] at h
    rw [fill, if_pos (by omega), ih (by omega)]

theorem paginate_one {l : Line} {ls : List Line} (h : (render (l :: ls)).length ≤ pageSize) :
    paginate (l :: ls) = [l :: ls] := by
  have hl : l.length + 1 ≤ pageSize := (length_lt_render List.mem_cons_self).trans_le h
  rw [paginate_short hl, fill_all h, paginate]

theorem part_plain {rest : List Line} {tail : List Byte} {room : ℕ}
    (hrest : ∀ l ∈ rest, Plain l) (htail : Plain tail)
    (hnext : ∀ m ms, rest = m :: ms → room < m.length + 1) :
    Plain ((render rest ++ tail).take room) := by
  cases rest with
  | nil => exact htail.subset (List.take_subset room tail)
  | cons m ms =>
    have hle := hnext m ms rfl
    rw [render_cons, List.append_assoc, List.take_append_of_le_length (by omega)]
    exact (hrest m List.mem_cons_self).subset (List.take_subset room m)

end BlacklistPaging
