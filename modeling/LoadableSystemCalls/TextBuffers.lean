import LoadableSystemCalls.CStrings

/-! # Text built up in a buffer

The string functions that append to a buffer, and what a sequence of appends comes to: the
chunks behind the old text, or a write outside the buffer. -/
namespace TextBuffers

open CStrings

/-- The first terminator of `b` ends the text `t`. -/
def Shows (b t : List Byte) : Prop := ∃ rest, b = t ++ 0 :: rest ∧ NulFree t

/-- Bytes and a terminator over the old terminator. -/
def append (b c : List Byte) : Option (List Byte) :=
  (strlen b).bind fun n => blit b n (c ++ [0])

def strcat (b src : List Byte) : Option (List Byte) :=
  (strlen src).bind fun _ => append b (text src)

def strncat (b src : List Byte) (count : ℕ) : Option (List Byte) :=
  if count = 0 then some b else append b ((text src).take count)

def sprintf (b out : List Byte) : Option (List Byte) := blit b 0 (out ++ [0])

theorem shows_length {b t : List Byte} (h : Shows b t) : t.length < b.length := by
  obtain ⟨rest, hb, -⟩ := h
  simp [hb]

theorem shows_strlen {b t : List Byte} (h : Shows b t) : strlen b = some t.length := by
  obtain ⟨rest, hb, ht⟩ := h
  rw [hb, strlen_append ht, strlen_zero]
  simp

theorem shows_text {b t : List Byte} (h : Shows b t) : text b = t := by
  obtain ⟨rest, hb, ht⟩ := h
  simpa [hb] using text_append ht (0#8 :: rest)

theorem shows_take {b t : List Byte} (h : Shows b t) : b.take t.length = t := by
  obtain ⟨rest, hb, -⟩ := h
  rw [hb, List.take_left]

theorem shows_nil {b : List Byte} (h : b[0]? = some 0) : Shows b [] := by
  cases b with
  | nil => cases h
  | cons x b =>
    obtain rfl := Option.some.inj h
    exact ⟨b, rfl, by simp [NulFree]⟩

theorem nulFree_or_shows (b : List Byte) : NulFree b ∨ ∃ t, Shows b t := by
  by_cases hzero : 0 ∈ b
  · obtain ⟨front, back, hsplit, hfront⟩ := List.eq_append_cons_of_mem hzero
    exact Or.inr ⟨front, back, hsplit, hfront⟩
  · exact Or.inl hzero

theorem head_zero_iff {b t : List Byte} (h : Shows b t) : b[0]? = some 0 ↔ t = [] := by
  obtain ⟨rest, hb, ht⟩ := h
  cases t with
  | nil => simp [hb]
  | cons x t =>
    have hx : x ≠ 0 := by
      intro hzero
      exact ht (hzero ▸ List.mem_cons_self)
    simpa [hb] using hx

theorem blit_shows {b c : List Byte} {i : ℕ} (hfit : i + c.length < b.length)
    (hfree : NulFree (b.take i ++ c)) :
    ∃ b', blit b i (c ++ [0]) = some b' ∧ Shows b' (b.take i ++ c) ∧ b'.length = b.length := by
  have hle : i + (c ++ [0]).length ≤ b.length := by
    simp only [List.length_append, List.length_singleton]
    omega
  have hblit : blit b i (c ++ [0]) =
      some (b.take i ++ (c ++ [0]) ++ b.drop (i + (c ++ [0]).length)) := by
    rw [blit, if_pos hle]
  refine ⟨_, hblit, ⟨b.drop (i + (c ++ [0]).length), ?_, hfree⟩, blit_length hblit⟩
  simp

theorem append_fits {b t c : List Byte} (h : Shows b t) (hc : NulFree c)
    (hfit : t.length + c.length < b.length) :
    ∃ b', append b c = some b' ∧ Shows b' (t ++ c) ∧ b'.length = b.length := by
  have hfree : NulFree (b.take t.length ++ c) := by
    rw [shows_take h]
    exact h.choose_spec.2.append hc
  have hblit := blit_shows hfit hfree
  rw [shows_take h] at hblit
  rw [append, shows_strlen h, Option.bind_some]
  exact hblit

theorem append_overruns {b t c : List Byte} (h : Shows b t)
    (hfull : b.length ≤ t.length + c.length) : append b c = none := by
  have hle : ¬ t.length + (c ++ [0]).length ≤ b.length := by
    simp only [List.length_append, List.length_singleton]
    omega
  rw [append, shows_strlen h, Option.bind_some, blit, if_neg hle]

/-- Whatever the buffer held, it shows what was printed. -/
theorem sprintf_shows {b out : List Byte} (hout : NulFree out) (hfit : out.length < b.length) :
    ∃ b', sprintf b out = some b' ∧ Shows b' out ∧ b'.length = b.length := by
  have hblit := @blit_shows b out 0 (by omega) (by simpa using hout)
  simpa only [sprintf, List.take_zero, List.nil_append] using hblit

theorem strcat_eq {src t : List Byte} (h : Shows src t) (b : List Byte) :
    strcat b src = append b t := by
  rw [strcat, shows_strlen h, shows_text h, Option.bind_some]

theorem strncat_eq {src : List Byte} (hsrc : NulFree src) (hne : src ≠ []) (b : List Byte) :
    strncat b src src.length = append b src := by
  have hpos : ¬ src.length = 0 := by simpa using hne
  rw [strncat, if_neg hpos, text_of_nulFree hsrc, List.take_length]

section
variable {σ α : Type*} {buff : σ → List Byte} {keeps : σ → Prop}

/-- From every state that shows a text, `op` appends `chunk` if it and a terminator fit,
and otherwise writes outside; `keeps` holds on. -/
def Appends (buff : σ → List Byte) (keeps : σ → Prop) (op : σ → Option σ)
    (chunk : List Byte) : Prop :=
  ∀ s t, Shows (buff s) t → keeps s →
    if t.length + chunk.length < (buff s).length then
      ∃ s', op s = some s' ∧ Shows (buff s') (t ++ chunk) ∧
        (buff s').length = (buff s).length ∧ keeps s'
    else op s = none

theorem appends_some : Appends buff keeps some [] := by
  intro s t hs hk
  have hfit : t.length + ([] : List Byte).length < (buff s).length := shows_length hs
  rw [if_pos hfit]
  exact ⟨s, rfl, by simpa using hs, rfl, hk⟩

theorem appends_bind {f g : σ → Option σ} {c d : List Byte} (hf : Appends buff keeps f c)
    (hg : Appends buff keeps g d) : Appends buff keeps (fun s => (f s).bind g) (c ++ d) := by
  intro s t hs hk
  have hfirst := hf s t hs hk
  change if _ then (∃ s', (f s).bind g = some s' ∧ _) else (f s).bind g = none
  by_cases hfit : t.length + c.length < (buff s).length
  · rw [if_pos hfit] at hfirst
    obtain ⟨u, hu, htext, hlen, hk'⟩ := hfirst
    have hsecond := hg u (t ++ c) htext hk'
    rw [hlen, List.length_append, List.append_assoc] at hsecond
    rw [hu, Option.bind_some, List.length_append, ← Nat.add_assoc]
    exact hsecond
  · rw [if_neg hfit] at hfirst
    have hno : ¬ t.length + (c ++ d).length < (buff s).length := by
      rw [List.length_append]
      omega
    rw [if_neg hno, hfirst, Option.bind_none]

theorem appends_foldlM {step : σ → α → Option σ} {chunk : α → List Byte} {xs : List α}
    (h : ∀ x ∈ xs, Appends buff keeps (fun s => step s x) (chunk x)) :
    Appends buff keeps (fun s => xs.foldlM step s) (xs.flatMap chunk) := by
  induction xs with
  | nil => exact appends_some
  | cons x xs ih =>
    have hround := h x List.mem_cons_self
    have hrest := ih fun y hy => h y (List.mem_cons_of_mem x hy)
    simp only [List.foldlM_cons, List.flatMap_cons]
    exact appends_bind hround hrest

theorem appends_append {set : σ → List Byte → σ} {c : List Byte} (hc : NulFree c)
    (hset : ∀ s b, buff (set s b) = b) (hkeeps : ∀ s b, keeps s → keeps (set s b)) :
    Appends buff keeps (fun s => (append (buff s) c).map (set s)) c := by
  intro s t hs hk
  change if _ then (∃ s', (append (buff s) c).map (set s) = some s' ∧ _)
    else (append (buff s) c).map (set s) = none
  by_cases hfit : t.length + c.length < (buff s).length
  · obtain ⟨b, hb, htext, hlen⟩ := append_fits hs hc hfit
    rw [if_pos hfit, hb]
    refine ⟨set s b, rfl, ?_, ?_, hkeeps s b hk⟩
    · rw [hset]
      exact htext
    · rw [hset, hlen]
  · rw [if_neg hfit, append_overruns hs (Nat.le_of_not_lt hfit)]
    rfl

end

end TextBuffers
