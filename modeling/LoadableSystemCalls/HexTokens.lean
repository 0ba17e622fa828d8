import LoadableSystemCalls.HexDecoding
import LoadableSystemCalls.KernelTypes

/-! # The tokens of a hex field (anti_module.c)

convert makes one byte of each token that is all digits, one more of white space at the
end, and never gets past a token of another kind. -/
namespace HexTokens

open CStrings KernelTypes HexDecoding

/-- The runs of characters between white space. -/
def tokens (s : List Byte) : List (List Byte) := (s.splitOnP isSpace).filter (· ≠ [])

/-- The white space at the end of a string is read as one more number. -/
def blankEnd (s : List Byte) : List Byte := if s.getLast?.any isSpace then [0] else []

theorem tokens_space {c : Byte} (hc : isSpace c = true) (s : List Byte) :
    tokens (c :: s) = tokens s := by
  have hsplit := List.splitOnP_append_cons [] s hc
  rw [List.nil_append] at hsplit
  rw [tokens, hsplit, List.splitOnP_nil, List.filter_append]
  rfl

theorem tokens_behind {b : List Byte} (hb : ∀ c ∈ b, isSpace c = true) (s : List Byte) :
    tokens (b ++ s) = tokens s := by
  induction b with
  | nil => rfl
  | cons c b ih =>
    rw [List.cons_append, tokens_space (hb c List.mem_cons_self)]
    exact ih fun x hx => hb x (List.mem_cons_of_mem c hx)

theorem tokens_nil : tokens [] = [] := by decide

theorem tokens_blank {b : List Byte} (hb : ∀ c ∈ b, isSpace c = true) : tokens b = [] := by
  rw [← List.append_nil b, tokens_behind hb, tokens_nil]

theorem tokens_leads {b t r : List Byte} (h : Leads b t r) (ht : t ≠ []) :
    tokens (b ++ t ++ r) = t :: tokens r := by
  rw [List.append_assoc, tokens_behind h.blank]
  cases r with
  | nil =>
    rw [List.append_nil, tokens, List.splitOnP_eq_singleton h.token, tokens_nil]
    simp [ht]
  | cons c r =>
    have hc : isSpace c = true := h.behind c rfl
    rw [tokens_space hc, tokens, List.splitOnP_append_cons_of_forall_mem h.token c hc]
    simp [ht, tokens]

theorem tokens_cases (s : List Byte) : (∀ c ∈ s, isSpace c = true) ∨
    ∃ b t r, s = b ++ t ++ r ∧ t ≠ [] ∧ Leads b t r := by
  by_cases hblank : ∀ c ∈ s, isSpace c = true
  · exact Or.inl hblank
  · right
    obtain ⟨c, rest, hrest⟩ : ∃ c rest, s.dropWhile isSpace = c :: rest :=
      List.exists_cons_of_ne_nil fun hnil => hblank (List.dropWhile_eq_nil_iff.mp hnil)
    have hne : s.dropWhile isSpace ≠ [] := by simp [hrest]
    have hc : isSpace c = false := by simpa [hrest] using List.head_dropWhile_not isSpace hne
    have hsplit : (c :: rest).takeWhile (! isSpace ·) ++ (c :: rest).dropWhile (! isSpace ·) =
        c :: rest := List.takeWhile_append_dropWhile
    refine ⟨s.takeWhile isSpace, (c :: rest).takeWhile (! isSpace ·),
      (c :: rest).dropWhile (! isSpace ·), ?_, by simp [hc], ?_, ?_, ?_⟩
    · rw [List.append_assoc, hsplit, ← hrest, List.takeWhile_append_dropWhile]
    · intro x hx
      exact List.mem_takeWhile_imp hx
    · intro x hx
      simpa using List.mem_takeWhile_imp hx
    · intro x hx
      have hnot := List.head?_dropWhile_not (! isSpace ·) (c :: rest)
      rw [Option.mem_def.mp hx] at hnot
      simpa using hnot

theorem tokens_induction {P : List Byte → Prop} (blank : ∀ b, (∀ c ∈ b, isSpace c = true) → P b)
    (token : ∀ b t r, Leads b t r → t ≠ [] → P r → P (b ++ t ++ r)) (s : List Byte) : P s := by
  generalize hlen : s.length = n
  induction n using Nat.strong_induction_on generalizing s with
  | _ n ih =>
    rcases tokens_cases s with hblank | ⟨b, t, r, rfl, ht, h⟩
    · exact blank s hblank
    · have hpos := List.length_pos_of_ne_nil ht
      simp only [List.length_append] at hlen
      exact token b t r h ht (ih r.length (by omega) r rfl)

theorem tokens_length_le (s : List Byte) : (tokens s).length ≤ s.length := by
  induction s using tokens_induction with
  | blank b hb => simp [tokens_blank hb]
  | token b t r h ht ih =>
    have hpos := List.length_pos_of_ne_nil ht
    rw [tokens_leads h ht]
    simp only [List.length_cons, List.length_append]
    omega

theorem blankEnd_leads {b t r : List Byte} (h : Leads b t r) (ht : t ≠ []) :
    blankEnd (b ++ t ++ r) = blankEnd r := by
  cases r with
  | nil =>
    have hlast := h.token (t.getLast ht) (List.getLast_mem ht)
    rw [List.append_nil, blankEnd, List.getLast?_append, List.getLast?_eq_some_getLast ht]
    simp [hlast, blankEnd]
  | cons c r =>
    rw [blankEnd, blankEnd, List.getLast?_append_of_ne_nil _ (List.cons_ne_nil c r)]

theorem blankEnd_blank {b : List Byte} (hb : ∀ c ∈ b, isSpace c = true) (hne : b ≠ []) :
    blankEnd b = [0] := by
  have hlast := hb (b.getLast hne) (List.getLast_mem hne)
  rw [blankEnd, List.getLast?_eq_some_getLast hne]
  simp [hlast]

theorem blankEnd_eq_nil {s : List Byte} :
    blankEnd s = [] ↔ ∀ c ∈ s.getLast?, isSpace c = false := by
  rw [blankEnd]
  cases s.getLast? <;> simp

theorem convert_digits {s : List Byte} (hall : ∀ t ∈ tokens s, HexToken t) {room : ℕ}
    (hroom : (tokens s).length + (blankEnd s).length ≤ room) :
    convert room s = some ((tokens s).map tokenValue ++ blankEnd s) := by
  induction s using tokens_induction generalizing room with
  | blank b hb =>
    rw [tokens_blank hb] at hroom ⊢
    by_cases hne : b = []
    · subst hne
      cases room <;> rfl
    · rw [blankEnd_blank hb hne] at hroom ⊢
      obtain ⟨room, rfl⟩ : ∃ n, room = n + 1 := ⟨room - 1, by simp at hroom; omega⟩
      rw [convert_cons hne, gethex_blank hb]
      cases room <;> rfl
  | token b t r h ht ih =>
    have hne : b ++ t ++ r ≠ [] := by simp [ht]
    rw [tokens_leads h ht] at hall hroom ⊢
    rw [blankEnd_leads h ht] at hroom ⊢
    rw [List.length_cons] at hroom
    obtain ⟨room, rfl⟩ : ∃ n, room = n + 1 := ⟨room - 1, by omega⟩
    have hfits : (tokens r).length + (blankEnd r).length ≤ room := by omega
    have hrest := ih (fun x hx => hall x (List.mem_cons_of_mem t hx)) hfits
    rw [convert_cons hne, gethex_leads h ht (hall t List.mem_cons_self), hrest]
    rfl

/-- Another token is never left behind, in no buffer. -/
theorem convert_bad {s : List Byte} (hbad : ¬ ∀ t ∈ tokens s, HexToken t) (room : ℕ) :
    convert room s = none := by
  induction s using tokens_induction generalizing room with
  | blank b hb =>
    rw [tokens_blank hb] at hbad
    exact absurd (List.forall_mem_nil _) hbad
  | token b t r h ht ih =>
    have hne : b ++ t ++ r ≠ [] := by simp [ht]
    rw [tokens_leads h ht, List.forall_mem_cons] at hbad
    cases room with
    | zero =>
      obtain ⟨c, s, hs⟩ := List.exists_cons_of_ne_nil hne
      rw [hs]
      rfl
    | succ room =>
      rw [convert_cons hne]
      by_cases hhex : HexToken t
      · rw [gethex_leads h ht hhex, ih (fun hall => hbad ⟨hhex, hall⟩)]
        rfl
      · obtain ⟨c, s, hrest, hspace, hc⟩ := gethex_bad h ht hhex
        rw [hrest, convert_stuck (List.cons_ne_nil c s) (gethex_stuck hspace hc s)]
        rfl

def DecodedInside (s : List Byte) : Prop :=
  ∃ out, convert pageSize s = some out ∧ out.length = (tokens s).length ∧ out.length < pageSize

/-- A string that fits a page is decoded so if and only if its tokens are all digits behind an
optional 0x and no white space ends it. -/
theorem decoded_inside_iff {s : List Byte} (hfits : s.length ≤ pageSize - 1) :
    DecodedInside s ↔ (∀ t ∈ tokens s, HexToken t) ∧ ∀ c ∈ s.getLast?, isSpace c = false := by
  have hcount := tokens_length_le s
  have hblank : (blankEnd s).length ≤ 1 := by
    rw [blankEnd]
    split <;> simp
  have hpage : 0 < pageSize := by decide
  rw [← blankEnd_eq_nil]
  constructor
  · rintro ⟨out, hout, hlen, -⟩
    by_cases hall : ∀ t ∈ tokens s, HexToken t
    · rw [convert_digits hall (by omega)] at hout
      obtain rfl := Option.some.inj hout
      rw [List.length_append, List.length_map, Nat.add_eq_left] at hlen
      exact ⟨hall, List.eq_nil_of_length_eq_zero hlen⟩
    · rw [convert_bad hall] at hout
      cases hout
  · rintro ⟨hall, hend⟩
    have hfits' : (tokens s).length + (blankEnd s).length ≤ pageSize := by omega
    have hconvert := convert_digits hall hfits'
    rw [hend, List.append_nil] at hconvert
    refine ⟨_, hconvert, List.length_map _, ?_⟩
    rw [List.length_map]
    omega

theorem decoded_inside_twoBytes : DecodedInside (ascii "0x41 b") := by
  apply (decoded_inside_iff (by decide)).mpr
  decide

/-- A letter that is no digit stops all progress, and a blank at the end is one byte more. -/
theorem bad_fields :
    (¬ DecodedInside (ascii "41 g") ∧ ∀ room, convert room (ascii "41 g") = none) ∧
    ¬ DecodedInside (ascii "41 ") := by
  have hbad : ¬ ∀ t ∈ tokens (ascii "41 g"), HexToken t := by decide
  refine ⟨⟨?_, convert_bad hbad⟩, ?_⟩
  · rintro ⟨out, hout, -⟩
    rw [convert_bad hbad] at hout
    cases hout
  · rintro ⟨out, hout, hlen, -⟩
    rw [convert_digits (by decide) (by decide)] at hout
    obtain rfl := Option.some.inj hout
    exact absurd hlen (by decide)

def hexDigit (upper : Bool) (n : ℕ) : Byte :=
  BitVec.ofNat 8 (if n < 10 then 48 + n else if upper then 55 + n else 87 + n)

inductive PrintedByte : Byte → List Byte → Prop where
  | one (upper : Bool) (n : ℕ) (h : n < 16) : PrintedByte (BitVec.ofNat 8 n) [hexDigit upper n]
  | two (upper upper' : Bool) (b : Byte) :
    PrintedByte b [hexDigit upper (b.toNat / 16), hexDigit upper' (b.toNat % 16)]

inductive PrintedRest : List Byte → List Byte → Prop where
  | nil : PrintedRest [] []
  | cons {b : Byte} {bs sep t s : List Byte} (hne : sep ≠ []) (hsep : ∀ c ∈ sep, isSpace c = true)
    (ht : PrintedByte b t) (hs : PrintedRest bs s) : PrintedRest (b :: bs) (sep ++ t ++ s)

/-- A rendering of bytes: white space may stand in front, none stands at the end. -/
inductive Rendering : List Byte → List Byte → Prop where
  | intro {b : Byte} {bs lead t s : List Byte} (hlead : ∀ c ∈ lead, isSpace c = true)
    (ht : PrintedByte b t) (hs : PrintedRest bs s) : Rendering (b :: bs) (lead ++ t ++ s)

theorem hexValue_hexDigit (upper : Bool) {n : ℕ} (h : n < 16) :
    hexValue (hexDigit upper n) = some n := by
  have hall : ∀ upper : Bool, ∀ n : Fin 16, hexValue (hexDigit upper n) = some n.val := by decide
  exact hall upper ⟨n, h⟩

theorem isHex_hexDigit (upper : Bool) {n : ℕ} (h : n < 16) : isHex (hexDigit upper n) = true := by
  rw [isHex, hexValue_hexDigit upper h]
  rfl

namespace PrintedByte
variable {b : Byte} {t : List Byte}

theorem ne_nil (h : PrintedByte b t) : t ≠ [] := by
  cases h <;> exact List.cons_ne_nil _ _

theorem digits (h : PrintedByte b t) : ∀ c ∈ t, isHex c = true := by
  cases h with
  | one upper n hn =>
    intro c hc
    obtain rfl := List.mem_singleton.mp hc
    exact isHex_hexDigit upper hn
  | two upper upper' b =>
    have hb := b.isLt
    intro c hc
    rcases List.mem_pair.mp hc with rfl | rfl
    · exact isHex_hexDigit upper (by omega)
    · exact isHex_hexDigit upper' (by omega)

theorem hexToken (h : PrintedByte b t) : HexToken t :=
  fun c hc => h.digits c ((fixupRadix_suffix t).subset hc)

theorem value (h : PrintedByte b t) : tokenValue t = b := by
  cases h with
  | one upper n hn =>
    rw [tokenValue, simpleStrtoul]
    simp [fixupRadix, isHex_hexDigit upper hn, hexValue_hexDigit upper hn]
  | two upper upper' b =>
    have hb := b.isLt
    have hhigh : b.toNat / 16 < 16 := by omega
    have hlow : b.toNat % 16 < 16 := by omega
    rw [tokenValue_pair (isHex_hexDigit upper hhigh) (isHex_hexDigit upper' hlow), tokenByte]
    simp only [hexValue_hexDigit upper hhigh, hexValue_hexDigit upper' hlow, Option.getD_some]
    rw [Nat.div_add_mod']
    simp

theorem leads (h : PrintedByte b t) {lead r : List Byte} (hlead : ∀ c ∈ lead, isSpace c = true)
    (hr : ∀ c ∈ r.head?, isSpace c = true) : Leads lead t r :=
  ⟨hlead, fun c hc => (isHex_plain c (h.digits c hc)).1, hr⟩

end PrintedByte

namespace PrintedRest
variable {bs s : List Byte}

theorem head (h : PrintedRest bs s) : ∀ c ∈ s.head?, isSpace c = true := by
  cases h with
  | nil => nofun
  | @cons b bs sep t s hne hsep ht hs =>
    obtain ⟨x, sep, rfl⟩ := List.exists_cons_of_ne_nil hne
    intro c hc
    obtain rfl : x = c := by simpa using hc
    exact hsep x List.mem_cons_self

theorem tokens_eq (h : PrintedRest bs s) : (∀ t ∈ tokens s, HexToken t) ∧
    (tokens s).map tokenValue = bs ∧ blankEnd s = [] := by
  induction h with
  | nil => exact ⟨by simp [tokens_nil], rfl, rfl⟩
  | @cons b bs sep t s hne hsep ht hs ih =>
    have hleads := ht.leads hsep hs.head
    rw [tokens_leads hleads ht.ne_nil, blankEnd_leads hleads ht.ne_nil, List.forall_mem_cons,
      List.map_cons, ht.value, ih.2.1]
    exact ⟨⟨ht.hexToken, ih.1⟩, rfl, ih.2.2⟩

end PrintedRest

/-- convert gives back the bytes of every rendering, in every buffer that has room for them. -/
theorem convert_rendering {bs s : List Byte} (h : Rendering bs s) {room : ℕ}
    (hroom : bs.length ≤ room) : convert room s = some bs := by
  obtain ⟨hlead, ht, hs⟩ := h
  have hleads := ht.leads hlead hs.head
  obtain ⟨hhex, hvalues, hend⟩ := hs.tokens_eq
  have hcount := congrArg List.length hvalues
  rw [List.length_map] at hcount
  rw [convert_digits]
  · rw [tokens_leads hleads ht.ne_nil, blankEnd_leads hleads ht.ne_nil, List.map_cons, ht.value,
      hvalues, hend, List.append_nil]
  · rw [tokens_leads hleads ht.ne_nil, List.forall_mem_cons]
    exact ⟨ht.hexToken, hhex⟩
  · rw [tokens_leads hleads ht.ne_nil, blankEnd_leads hleads ht.ne_nil, hend, List.length_cons,
      hcount]
    exact hroom

theorem convert_rendering_mixed : convert 2 (ascii " aF  7") = some [175, 7] := by
  have hrest : PrintedRest [7] ([32, 32] ++ [hexDigit false 7] ++ []) :=
    .cons (by simp) (by decide) (.one false 7 (by decide)) .nil
  have hrendering : Rendering [175, 7] ([32] ++ [hexDigit false 10, hexDigit true 15] ++
      ([32, 32] ++ [hexDigit false 7] ++ [])) :=
    .intro (by decide) (.two false true 175) hrest
  exact convert_rendering hrendering (by decide)

end HexTokens
