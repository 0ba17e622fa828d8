import LoadableSystemCalls.CStrings

/-! # Hex bytes of a blacklist line (anti_module.c)

gethex and convert, with the kernel's simple_strtoul at base 16. -/
namespace HexDecoding

open CStrings

/-- The kernel's `isspace`, which counts the no-break space of Latin-1. -/
def isSpace (c : Byte) : Bool := (9 ≤ c ∧ c ≤ 13) ∨ c = 32 ∨ c = 160

/-- The kernel folds case by setting one bit. -/
def hexValue (c : Byte) : Option ℕ :=
  if 48 ≤ c ∧ c ≤ 57 then some (c.toNat - 48)
  else if 97 ≤ c ||| 32 ∧ c ||| 32 ≤ 102 then some ((c ||| 32).toNat - 87)
  else none

def isHex (c : Byte) : Bool := (hexValue c).isSome

/-- `_parse_integer_fixup_radix` at base 16 drops a leading 0x. -/
def fixupRadix : List Byte → List Byte
  | z :: x :: s => if z = 48 ∧ x ||| 32 = 120 then s else z :: x :: s
  | s => s

/-- The value of the longest run of hex digits and the end pointer behind it. -/
def simpleStrtoul (s : List Byte) : ℕ × List Byte :=
  let cp := fixupRadix s
  ((cp.takeWhile isHex).foldl (fun v c => v * 16 + (hexValue c).getD 0) 0, cp.dropWhile isHex)

/-- The low byte of the number behind the white space, and the end pointer. -/
def gethex (s : List Byte) : Byte × List Byte :=
  let r := simpleStrtoul (s.dropWhile isSpace)
  (BitVec.ofNat 8 r.1, r.2)

/-- Writes one byte for each call of gethex into a buffer with this much room; without
progress it runs off the buffer. -/
def convert : ℕ → List Byte → Option (List Byte)
  | _, [] => some []
  | 0, _ :: _ => none
  | room + 1, c :: s =>
    let r := gethex (c :: s)
    (convert room r.2).map (r.1 :: ·)

theorem fixupRadix_suffix (s : List Byte) : fixupRadix s <:+ s := by
  unfold fixupRadix
  split
  · split
    · exact (List.suffix_cons _ _).trans (List.suffix_cons _ _)
    · exact List.suffix_rfl
  · exact List.suffix_rfl

theorem gethex_suffix (s : List Byte) : (gethex s).2 <:+ s :=
  ((List.dropWhile_suffix isHex).trans (fixupRadix_suffix _)).trans (List.dropWhile_suffix isSpace)

theorem convert_stuck {s : List Byte} (hs : s ≠ []) (hstuck : (gethex s).2 = s) (room : ℕ) :
    convert room s = none := by
  rcases List.exists_cons_of_ne_nil hs with ⟨c, s, rfl⟩
  induction room with
  | zero => rfl
  | succ room ih =>
    rw [convert]
    simp only [hstuck, ih, Option.map_none]

theorem convert_length {room : ℕ} {s out : List Byte} (h : convert room s = some out) :
    out.length ≤ s.length := by
  induction room generalizing s out with
  | zero =>
    cases s with
    | nil =>
      obtain rfl := Option.some.inj h
      exact le_rfl
    | cons c s => cases h
  | succ room ih =>
    cases s with
    | nil =>
      obtain rfl := Option.some.inj h
      exact le_rfl
    | cons c s =>
      have hsuffix := gethex_suffix (c :: s)
      by_cases hstuck : (gethex (c :: s)).2 = c :: s
      · rw [convert_stuck (List.cons_ne_nil c s) hstuck] at h
        cases h
      · rw [convert] at h
        rcases Option.map_eq_some_iff.mp h with ⟨rest, hrest, rfl⟩
        have hlen : rest.length ≤ (gethex (c :: s)).2.length := ih hrest
        have hne : (gethex (c :: s)).2.length ≠ (c :: s).length :=
          fun he => hstuck (hsuffix.eq_of_length he)
        have hle := hsuffix.length_le
        simp only [List.length_cons] at hle hne ⊢
        omega

def HexToken (t : List Byte) : Prop := ∀ c ∈ fixupRadix t, isHex c = true

instance (t : List Byte) : Decidable (HexToken t) :=
  List.decidableBAll (fun c : Byte => isHex c = true) (fixupRadix t)

def tokenValue (t : List Byte) : Byte := BitVec.ofNat 8 (simpleStrtoul t).1

/-- White space, then nothing or a token that ends at white space. -/
structure Leads (b t r : List Byte) : Prop where
  blank : ∀ c ∈ b, isSpace c = true
  token : ∀ c ∈ t, isSpace c = false
  behind : ∀ c ∈ r.head?, isSpace c = true

theorem isSpace_plain : ∀ c : Byte, isSpace c = true →
    isHex c = false ∧ c ≠ 48 ∧ c ||| 32 ≠ 120 := by decide

theorem isHex_zero : isHex 48 = true := rfl

section token
variable {b t r : List Byte}

theorem dropWhile_leads (h : Leads b t r) (ht : t ≠ []) :
    (b ++ t ++ r).dropWhile isSpace = t ++ r := by
  obtain ⟨c, t, rfl⟩ := List.exists_cons_of_ne_nil ht
  have hc : isSpace c = false := h.token c List.mem_cons_self
  rw [List.append_assoc, List.dropWhile_append_of_pos h.blank]
  exact List.dropWhile_cons_of_neg (by simp [hc])

theorem fixupRadix_behind (h : Leads b t r) (ht : t ≠ []) :
    fixupRadix (t ++ r) = fixupRadix t ++ r := by
  match t with
  | [] => exact absurd rfl ht
  | [z] =>
    cases r with
    | nil => rfl
    | cons x r =>
      have hx := (isSpace_plain x (h.behind x rfl)).2.2
      change (if z = 48 ∧ x ||| 32 = 120 then r else z :: x :: r) = z :: x :: r
      exact if_neg fun hradix => hx hradix.2
  | z :: x :: t =>
    simp only [List.cons_append, fixupRadix]
    split <;> rfl

theorem gethex_leads (h : Leads b t r) (ht : t ≠ []) (hhex : HexToken t) :
    gethex (b ++ t ++ r) = (tokenValue t, r) := by
  have hbehind : r.takeWhile isHex = [] ∧ r.dropWhile isHex = r := by
    cases r with
    | nil => exact ⟨rfl, rfl⟩
    | cons c r =>
      have hc := (isSpace_plain c (h.behind c rfl)).1
      simp [hc]
  have hall : (fixupRadix t).takeWhile isHex = fixupRadix t :=
    List.takeWhile_eq_self_iff.mpr hhex
  rw [gethex, dropWhile_leads h ht, simpleStrtoul, fixupRadix_behind h ht]
  simp only [List.takeWhile_append_of_pos hhex, List.dropWhile_append_of_pos hhex, hbehind,
    List.append_nil, tokenValue, simpleStrtoul, hall]

theorem gethex_blank (hb : ∀ c ∈ b, isSpace c = true) : gethex b = (0, []) := by
  have hdrop : b.dropWhile isSpace = [] := List.dropWhile_eq_nil_iff.mpr hb
  rw [gethex, hdrop]
  rfl

/-- On a character that is neither a digit nor white space no call makes progress. -/
theorem gethex_stuck {c : Byte} (hspace : isSpace c = false) (hhex : isHex c = false)
    (s : List Byte) : (gethex (c :: s)).2 = c :: s := by
  have hfix : fixupRadix (c :: s) = c :: s := by
    cases s with
    | nil => rfl
    | cons x s =>
      rw [fixupRadix, if_neg]
      rintro ⟨rfl, -⟩
      rw [isHex_zero] at hhex
      cases hhex
  rw [gethex, List.dropWhile_cons_of_neg (by simp [hspace]), simpleStrtoul, hfix]
  exact List.dropWhile_cons_of_neg (by simp [hhex])

theorem gethex_bad (h : Leads b t r) (ht : t ≠ []) (hhex : ¬ HexToken t) :
    ∃ c s, (gethex (b ++ t ++ r)).2 = c :: s ∧ isSpace c = false ∧ isHex c = false := by
  have hne : (fixupRadix t).dropWhile isHex ≠ [] := by
    intro hnil
    exact hhex (List.dropWhile_eq_nil_iff.mp hnil)
  obtain ⟨c, s, hs⟩ := List.exists_cons_of_ne_nil hne
  have hmem : c ∈ t := by
    apply (fixupRadix_suffix t).subset
    apply (List.dropWhile_suffix isHex).subset
    rw [hs]
    exact List.mem_cons_self
  have hc : isHex c = false := by
    have hhead := List.head_dropWhile_not isHex hne
    simpa [hs] using hhead
  refine ⟨c, s ++ r, ?_, h.token c hmem, hc⟩
  rw [gethex, dropWhile_leads h ht, simpleStrtoul, fixupRadix_behind h ht]
  change (fixupRadix t ++ r).dropWhile isHex = c :: (s ++ r)
  rw [List.dropWhile_append, hs]
  rfl

end token

abbrev Digits := Byte × Byte

def tokenByte (t : Digits) : Byte :=
  BitVec.ofNat 8 ((hexValue t.1).getD 0 * 16 + (hexValue t.2).getD 0)

def printed (ts : List Digits) : List Byte := ts.flatMap fun t => [32, t.1, t.2]

def AllHex (ts : List Digits) : Prop := ∀ t ∈ ts, isHex t.1 = true ∧ isHex t.2 = true

instance (ts : List Digits) : Decidable (AllHex ts) :=
  List.decidableBAll (fun t : Digits => isHex t.1 = true ∧ isHex t.2 = true) ts

theorem isHex_plain : ∀ c : Byte, isHex c = true →
    isSpace c = false ∧ c ||| 32 ≠ 120 ∧ c ≠ 0 ∧ c ≠ 10 := by decide

theorem fixupRadix_digits {h l : Byte} (hl : isHex l = true) (s : List Byte) :
    fixupRadix (h :: l :: s) = h :: l :: s := by
  rw [fixupRadix, if_neg]
  rintro ⟨-, hx⟩
  exact (isHex_plain l hl).2.1 hx

theorem hexToken_pair {h l : Byte} (hh : isHex h = true) (hl : isHex l = true) :
    HexToken [h, l] := by
  intro c hc
  rw [fixupRadix_digits hl] at hc
  rcases List.mem_pair.mp hc with rfl | rfl
  · exact hh
  · exact hl

theorem tokenValue_pair {h l : Byte} (hh : isHex h = true) (hl : isHex l = true) :
    tokenValue [h, l] = tokenByte (h, l) := by
  rw [tokenValue, simpleStrtoul, fixupRadix_digits hl]
  simp [hh, hl, tokenByte]

theorem gethex_token {t : Digits} (ht : isHex t.1 = true ∧ isHex t.2 = true)
    {b s : List Byte} (hb : ∀ c ∈ b, isSpace c = true)
    (hs : ∀ c ∈ s.head?, isSpace c = true) :
    gethex (b ++ t.1 :: t.2 :: s) = (tokenByte t, s) := by
  have htoken : ∀ c ∈ [t.1, t.2], isSpace c = false := by
    intro c hc
    rcases List.mem_pair.mp hc with rfl | rfl
    · exact (isHex_plain t.1 ht.1).1
    · exact (isHex_plain t.2 ht.2).1
  have hget := gethex_leads ⟨hb, htoken, hs⟩ (List.cons_ne_nil _ _) (hexToken_pair ht.1 ht.2)
  rw [List.append_assoc, tokenValue_pair ht.1 ht.2] at hget
  exact hget

theorem printed_head {ts : List Digits} : ∀ c ∈ (printed ts).head?, isSpace c = true := by
  cases ts with
  | nil => simp [printed]
  | cons t ts =>
    intro c hc
    obtain rfl : 32 = c := by simpa [printed] using hc
    rfl

theorem convert_cons {room : ℕ} {s : List Byte} (hs : s ≠ []) :
    convert (room + 1) s = (convert room (gethex s).2).map ((gethex s).1 :: ·) := by
  rcases List.exists_cons_of_ne_nil hs with ⟨c, s, rfl⟩
  rfl

theorem convert_printed {ts : List Digits} (hts : AllHex ts) {room : ℕ} (hr : ts.length ≤ room) :
    convert room (printed ts) = some (ts.map tokenByte) := by
  induction ts generalizing room with
  | nil => cases room <;> rfl
  | cons t ts ih =>
    rw [List.length_cons] at hr
    obtain ⟨room, rfl⟩ : ∃ n, room = n + 1 := ⟨room - 1, by omega⟩
    have hget : gethex (printed (t :: ts)) = (tokenByte t, printed ts) :=
      gethex_token (b := [32]) (hts t List.mem_cons_self) (by decide) printed_head
    have hne : printed (t :: ts) ≠ [] := by simp [printed]
    rw [convert_cons hne, hget, ih (fun x hx => hts x (List.mem_cons_of_mem t hx)) (by omega)]
    rfl

theorem convert_field {t : Digits} {ts : List Digits} (hts : AllHex (t :: ts)) {room : ℕ}
    (hr : ts.length < room) :
    convert room (t.1 :: t.2 :: printed ts) = some (tokenByte t :: ts.map tokenByte) := by
  obtain ⟨room, rfl⟩ : ∃ n, room = n + 1 := ⟨room - 1, by omega⟩
  have hget : gethex (t.1 :: t.2 :: printed ts) = (tokenByte t, printed ts) :=
    gethex_token (b := []) (hts t List.mem_cons_self) (by simp) printed_head
  rw [convert_cons (List.cons_ne_nil _ _), hget,
    convert_printed (fun x hx => hts x (List.mem_cons_of_mem t hx)) (by omega)]
  rfl

end HexDecoding
