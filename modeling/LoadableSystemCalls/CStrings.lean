import Mathlib.Data.List.Infix
import Mathlib.Data.List.TakeWhile
import Mathlib.Data.Nat.Digits.Defs

/-! # NUL-terminated bytes

Strings inside byte buffers: the text before the first terminator, its length, and writes
that stay inside a buffer. -/
namespace CStrings

abbrev Byte := BitVec 8

def ascii (s : String) : List Byte := s.toList.map fun c => BitVec.ofNat 8 c.toNat

/-- The string that starts a buffer; all of it when there is no terminator. -/
def text (b : List Byte) : List Byte := b.takeWhile (· ≠ 0)

/-- Runs off a buffer that holds no terminator. -/
def strlen : List Byte → Option ℕ
  | [] => none
  | x :: b => if x = 0 then some 0 else (strlen b).map (· + 1)

/-- Copies `s` to offset `i` of a buffer, or runs off it. -/
def blit (b : List Byte) (i : ℕ) (s : List Byte) : Option (List Byte) :=
  if i + s.length ≤ b.length then some (b.take i ++ s ++ b.drop (i + s.length)) else none

def NulFree (s : List Byte) : Prop := 0 ∉ s

instance (s : List Byte) : Decidable (NulFree s) := inferInstanceAs (Decidable (0 ∉ s))

theorem NulFree.append {s t : List Byte} (hs : NulFree s) (ht : NulFree t) :
    NulFree (s ++ t) := by
  intro h
  rcases List.mem_append.mp h with h | h
  · exact hs h
  · exact ht h

theorem text_nulFree (b : List Byte) : NulFree (text b) := by
  intro h
  simpa using List.mem_takeWhile_imp h

theorem text_append {s : List Byte} (hs : NulFree s) (b : List Byte) :
    text (s ++ b) = s ++ text b := by
  apply List.takeWhile_append_of_pos
  intro x hx
  have hne : x ≠ 0 := by
    rintro rfl
    exact hs hx
  simpa using hne

theorem text_of_nulFree {s : List Byte} (hs : NulFree s) : text s = s := by
  simpa [text] using text_append hs []

theorem text_cons {x : Byte} (hx : x ≠ 0) (b : List Byte) : text (x :: b) = x :: text b :=
  List.takeWhile_cons_of_pos (by simpa using hx)

@[simp] theorem text_zero (b : List Byte) : text (0#8 :: b) = [] := rfl

theorem strlen_append {s : List Byte} (hs : NulFree s) (b : List Byte) :
    strlen (s ++ b) = (strlen b).map (s.length + ·) := by
  induction s with
  | nil => simp
  | cons x s ih =>
    have hx : x ≠ 0 := by
      rintro rfl
      exact hs List.mem_cons_self
    have hs' : NulFree s := fun h => hs (List.mem_cons_of_mem x h)
    rw [List.cons_append, strlen, if_neg hx, ih hs', Option.map_map]
    congr 1
    funext n
    simp only [Function.comp_apply, List.length_cons]
    omega

theorem strlen_zero (b : List Byte) : strlen (0 :: b) = some 0 := rfl

theorem strlen_nulFree {s : List Byte} (hs : NulFree s) : strlen s = none := by
  simpa [strlen] using strlen_append hs []

theorem strlen_isSome_iff {b : List Byte} : (strlen b).isSome ↔ ¬ NulFree b := by
  constructor
  · intro hsome hb
    rw [strlen_nulFree hb] at hsome
    cases hsome
  · intro hb
    obtain ⟨front, back, hsplit, hfront⟩ := List.eq_append_cons_of_mem (not_not.mp hb)
    rw [hsplit, strlen_append hfront, strlen_zero]
    rfl

theorem strlen_eq_text {b : List Byte} {n : ℕ} (h : strlen b = some n) :
    b.take n = text b ∧ n = (text b).length := by
  induction b generalizing n with
  | nil => cases h
  | cons x b ih =>
    by_cases hx : x = 0
    · subst hx
      rw [strlen_zero] at h
      cases h
      exact ⟨rfl, rfl⟩
    · rw [strlen, if_neg hx] at h
      rcases Option.map_eq_some_iff.mp h with ⟨m, hm, rfl⟩
      rcases ih hm with ⟨htake, hlen⟩
      rw [text_cons hx, List.take_succ_cons, htake, List.length_cons, ← hlen]
      exact ⟨rfl, rfl⟩

theorem text_append_of_mem {s : List Byte} (h : 0 ∈ s) (b : List Byte) :
    text (s ++ b) = text s := by
  obtain ⟨front, back, hsplit, hfront⟩ := List.eq_append_cons_of_mem h
  have hall : text (front ++ 0 :: (back ++ b)) = front := by
    simpa using text_append hfront (0#8 :: (back ++ b))
  have hs : text (front ++ 0 :: back) = front := by
    simpa using text_append hfront (0#8 :: back)
  rw [hsplit, List.append_assoc, List.cons_append, hall, hs]

theorem strlen_of_mem {s : List Byte} (h : 0 ∈ s) : strlen s = some (text s).length := by
  have hsome : (strlen s).isSome := strlen_isSome_iff.mpr (not_not.mpr h)
  obtain ⟨n, hn⟩ := Option.isSome_iff_exists.mp hsome
  rw [hn, (strlen_eq_text hn).2]

theorem blit_length {b c : List Byte} {i : ℕ} {s : List Byte} (h : blit b i s = some c) :
    c.length = b.length := by
  unfold blit at h
  split at h
  · next hle =>
    obtain rfl := Option.some.inj h
    simp only [List.length_append, List.length_take, List.length_drop]
    omega
  · cases h

theorem blit_append (b : List Byte) (i : ℕ) (s t : List Byte) :
    (blit b i s).bind (fun b => blit b (i + s.length) t) = blit b i (s ++ t) := by
  by_cases hs : i + s.length ≤ b.length
  · have hlen : (b.take i ++ s).length = i + s.length := by
      rw [List.length_append, List.length_take]
      omega
    have hwritten : blit b i s = some (b.take i ++ s ++ b.drop (i + s.length)) := by
      rw [blit, if_pos hs]
    have hfront : (b.take i ++ s ++ b.drop (i + s.length)).take (i + s.length) = b.take i ++ s :=
      List.take_left' hlen
    have hback : (b.take i ++ s ++ b.drop (i + s.length)).drop (i + s.length + t.length) =
        b.drop (i + (s ++ t).length) := by
      rw [← List.drop_drop, List.drop_left' hlen, List.drop_drop, List.length_append, Nat.add_assoc]
    rw [hwritten, Option.bind_some, blit, blit, blit_length hwritten, hfront, hback,
      List.length_append, Nat.add_assoc]
    split
    · rw [List.append_assoc _ s t]
    · rfl
  · have hst : ¬ i + (s ++ t).length ≤ b.length := by
      rw [List.length_append]
      omega
    rw [blit, if_neg hs, blit, if_neg hst, Option.bind_none]

theorem delimited_inj {d : Byte} {s t a b : List Byte} (hs : d ∉ s) (ht : d ∉ t)
    (h : s ++ d :: a = t ++ d :: b) : s = t ∧ a = b := by
  induction s generalizing t with
  | nil =>
    cases t with
    | nil => exact ⟨rfl, (List.cons.inj h).2⟩
    | cons x t =>
      have hx : d = x := (List.cons.inj h).1
      exact absurd (hx ▸ List.mem_cons_self) ht
  | cons x s ih =>
    cases t with
    | nil =>
      have hx : x = d := (List.cons.inj h).1
      exact absurd (hx ▸ List.mem_cons_self) hs
    | cons y t =>
      have htail := ih (fun hd => hs (List.mem_cons_of_mem x hd))
        (fun hd => ht (List.mem_cons_of_mem y hd)) (List.cons.inj h).2
      rw [(List.cons.inj h).1, htail.1]
      exact ⟨rfl, htail.2⟩

theorem infix_of_delimited {d : Byte} {p a b : List Byte} (hd : d ∉ p) (h : p <:+: a ++ d :: b) :
    p <:+: a ∨ p <:+: b := by
  obtain ⟨s, t, h⟩ := h
  rcases List.append_eq_append_iff.mp h with ⟨u, ha, -⟩ | ⟨u, hs, hb⟩
  · exact Or.inl ⟨s, u, ha.symm⟩
  · cases u with
    | nil =>
      rw [List.append_nil] at hs
      exact Or.inl ⟨s, [], (List.append_nil _).trans hs⟩
    | cons x u =>
      obtain ⟨rfl, rfl⟩ := List.cons.inj hb
      rcases List.append_eq_append_iff.mp hs with ⟨v, -, hp⟩ | ⟨v, -, hp⟩
      · exact absurd (hp ▸ List.mem_append_right v List.mem_cons_self) hd
      · cases v with
        | nil =>
          rw [List.nil_append] at hp
          exact absurd (hp ▸ List.mem_cons_self) hd
        | cons y v =>
          obtain ⟨-, rfl⟩ := List.cons.inj hp
          exact Or.inr ⟨v, t, rfl⟩

/-- `strsep` with one delimiter: the token and the pointer behind the delimiter, NULL when
the string ended first. -/
def strsep (d : Byte) : List Byte → Option (List Byte × Option (List Byte))
  | [] => none
  | x :: s =>
    if x = d then some ([], some s)
    else if x = 0 then some ([], none)
    else (strsep d s).map fun p => (x :: p.1, p.2)

theorem strsep_append {d : Byte} {t : List Byte} (ht : NulFree t) (hd : d ∉ t)
    (s : List Byte) : strsep d (t ++ s) = (strsep d s).map fun p => (t ++ p.1, p.2) := by
  induction t with
  | nil => simp
  | cons x t ih =>
    have hx : x ≠ 0 := by
      rintro rfl
      exact ht List.mem_cons_self
    have hxd : x ≠ d := by
      rintro rfl
      exact hd List.mem_cons_self
    have hrest := ih (fun h => ht (List.mem_cons_of_mem x h))
      (fun h => hd (List.mem_cons_of_mem x h))
    rw [List.cons_append, strsep, if_neg hxd, if_neg hx, hrest, Option.map_map]
    rfl

theorem strsep_found {d : Byte} {t : List Byte} (ht : NulFree t) (hd : d ∉ t) (s : List Byte) :
    strsep d (t ++ d :: s) = some (t, some s) := by
  rw [strsep_append ht hd, strsep, if_pos rfl, Option.map_some, List.append_nil]

theorem strsep_absent {d : Byte} {t : List Byte} (ht : NulFree t) (hd : d ∉ t) (hd0 : d ≠ 0)
    (s : List Byte) : strsep d (t ++ 0 :: s) = some (t, none) := by
  rw [strsep_append ht hd, strsep, if_neg (Ne.symm hd0), if_pos rfl, Option.map_some,
    List.append_nil]

theorem strsep_cases {d : Byte} {s t : List Byte} {p : Option (List Byte)}
    (h : strsep d s = some (t, p)) : NulFree t ∧ d ∉ t ∧
      ((∃ rest, p = some rest ∧ s = t ++ d :: rest) ∨
        p = none ∧ ∃ rest, s = t ++ 0 :: rest) := by
  induction s generalizing t with
  | nil => cases h
  | cons x s ih =>
    rw [strsep] at h
    by_cases hxd : x = d
    · rw [if_pos hxd] at h
      cases h
      exact ⟨List.not_mem_nil, List.not_mem_nil, Or.inl ⟨s, rfl, by rw [hxd, List.nil_append]⟩⟩
    · by_cases hx : x = 0
      · rw [if_neg hxd, if_pos hx] at h
        cases h
        exact ⟨List.not_mem_nil, List.not_mem_nil, Or.inr ⟨rfl, s, by rw [hx, List.nil_append]⟩⟩
      · rw [if_neg hxd, if_neg hx] at h
        obtain ⟨⟨u, q⟩, hu, heq⟩ := Option.map_eq_some_iff.mp h
        cases heq
        obtain ⟨hfree, hd, hrest⟩ := ih hu
        refine ⟨?_, ?_, ?_⟩
        · intro hmem
          rcases List.mem_cons.mp hmem with heq | hmem
          · exact hx heq.symm
          · exact hfree hmem
        · intro hmem
          rcases List.mem_cons.mp hmem with heq | hmem
          · exact hxd heq.symm
          · exact hd hmem
        · rcases hrest with ⟨rest, hp, rfl⟩ | ⟨hp, rest, rfl⟩
          · exact Or.inl ⟨rest, hp, rfl⟩
          · exact Or.inr ⟨hp, rest, rfl⟩

theorem strsep_token {d : Byte} {s t : List Byte} {p : Option (List Byte)}
    (h : strsep d s = some (t, p)) : t = s.takeWhile fun b => b ≠ d ∧ b ≠ 0 := by
  obtain ⟨hfree, hd, hrest⟩ := strsep_cases h
  have hstays : ∀ b ∈ t, decide (b ≠ d ∧ b ≠ 0) = true := by
    intro b hb
    have hbd : b ≠ d := fun heq => hd (heq ▸ hb)
    have hb0 : b ≠ 0 := fun heq => hfree (heq ▸ hb)
    exact decide_eq_true ⟨hbd, hb0⟩
  have hends : ∃ c rest, s = t ++ c :: rest ∧ (c = d ∨ c = 0) := by
    rcases hrest with ⟨rest, -, hs⟩ | ⟨-, rest, hs⟩
    · exact ⟨d, rest, hs, Or.inl rfl⟩
    · exact ⟨0, rest, hs, Or.inr rfl⟩
  obtain ⟨c, rest, rfl, hc⟩ := hends
  have hstop : (c :: rest).takeWhile (fun b => decide (b ≠ d ∧ b ≠ 0)) = [] := by
    apply List.takeWhile_cons_of_neg
    rcases hc with rfl | rfl
    · simp
    · simp
  rw [List.takeWhile_append_of_pos hstays, hstop, List.append_nil]

/-- `strstr` on two terminated strings: what follows a terminator is not looked at. -/
def strstr (haystack needle : List Byte) : Bool := decide (text needle <:+: text haystack)

end CStrings
