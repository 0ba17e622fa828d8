import Mathlib.Data.List.Infix
import LoadableSystemCalls.CStrings
import LoadableSystemCalls.FueledLoops
import LoadableSystemCalls.KernelTypes

/-! # Scanning a file for one pattern (anti_module.c)

The inner loop of check_in_blacklist: windows of one byte less than a page, each beginning
the pattern's length before the end of the last. -/
namespace FileScan

open CStrings FueledLoops KernelTypes

def toInt (x : ℤ) : ℤ := Int.bmod x 4294967296

/-- An open file: `read call pos count` is what the given call of vfs_read gives, `none` for
a negative errno. -/
structure VFile where
  iSize : ℤ
  read : ℕ → ℤ → ℕ → Option (List Byte)
  read_le : ∀ call pos count b, read call pos count = some b → b.length ≤ count

def regularFile (content : List Byte) : VFile where
  iSize := content.length
  read := fun _ pos count => if pos < 0 then none else some ((content.drop pos.toNat).take count)
  read_le := by
    intro call pos count b hb
    split at hb
    · cases hb
    · obtain rfl := Option.some.inj hb
      exact List.length_take_le _ _

/-- `while (file_size > 0)`, for the decoded bytes `hex`; a negative errno is used as an
index. The result is whether the pattern was found, and the calls of vfs_read so far. -/
def scan (inputFile : VFile) (originalFileSize : ℤ) (hex : List Byte) :
    ℕ → ℤ → ℤ → ℕ → Except Halt (Bool × ℕ)
  | fuel, fileSize, fPos, call =>
    if 0 < fileSize then
      match fuel with
      | 0 => .error .hang
      | fuel + 1 =>
        match inputFile.read call fPos (pageSize - 1) with
        | none => .error .oops
        | some buff =>
          if strstr (buff ++ [0]) (hex ++ [0]) then .ok (true, call + 1)
          else if fPos + buff.length ≠ originalFileSize then
            scan inputFile originalFileSize hex fuel
              (toInt (toInt (fileSize - buff.length) + hex.length))
              (fPos + buff.length - hex.length) (call + 1)
          else
            scan inputFile originalFileSize hex fuel (toInt (fileSize - buff.length))
              (fPos + buff.length) (call + 1)
    else .ok (false, call)

section
variable (content hex : List Byte)

def advance : ℕ := pageSize - 1 - hex.length

def window (i : ℕ) : List Byte := (content.drop (i * advance hex)).take (pageSize - 1)

/-- The loop gets to window `i`: it starts before the size kept in an int, and no window
before it ended exactly there. -/
def Reached (i : ℕ) : Prop :=
  ((i * advance hex : ℕ) : ℤ) < toInt content.length ∧
  ∀ j < i, ((j * advance hex + (window content hex j).length : ℕ) : ℤ) ≠ toInt content.length

/-- The pattern's bytes before its first zero occur before the first zero of a window. -/
def Visible : Prop :=
  ∃ i, Reached content hex i ∧ text hex <:+: text (window content hex i)

end

theorem advance_add {hex : List Byte} (h : hex.length < pageSize - 1) :
    advance hex + hex.length = pageSize - 1 := Nat.sub_add_cancel h.le

theorem toInt_of_lt {x : ℤ} (h : -2147483648 ≤ x) (h' : x < 2147483648) : toInt x = x := by
  rw [toInt, Int.bmod]
  split <;> omega

theorem toInt_natCast {n : ℕ} (h : n < 2147483648) : toInt n = n :=
  toInt_of_lt (by omega) (by omega)

theorem toInt_size (n : ℕ) : -2147483648 ≤ toInt n ∧ toInt n < 2147483648 ∧
    (toInt n = n ∨ toInt n + 4294967296 ≤ n) := by
  rw [toInt, Int.bmod]
  split <;> omega

theorem strstr_terminated (b hex : List Byte) :
    strstr (b ++ [0]) (hex ++ [0]) = true ↔ text hex <:+: text b := by
  have hend : ∀ s : List Byte, text (s ++ [0]) = text s := by
    intro s
    induction s with
    | nil => rfl
    | cons x s ih =>
      by_cases hx : x = 0
      · subst hx
        rfl
      · rw [List.cons_append, text_cons hx, text_cons hx, ih]
  simp only [strstr, decide_eq_true_eq, hend]

theorem window_full_or_last {content hex : List Byte} {i : ℕ}
    (hr : ((i * advance hex : ℕ) : ℤ) < toInt content.length) :
    (window content hex i).length = pageSize - 1 ∨
    ((i * advance hex + (window content hex i).length : ℕ) : ℤ) = toInt content.length := by
  rcases toInt_size content.length with ⟨-, -, hsize⟩
  rw [window, List.length_take, List.length_drop]
  simp only [pageSize] at *
  omega

section rounds
variable {content hex : List Byte} {i : ℕ}

theorem read_window (call : ℕ) :
    (regularFile content).read call (i * advance hex : ℕ) (pageSize - 1) =
      some (window content hex i) := by
  simp only [regularFile]
  rw [if_neg (Int.not_lt.mpr (Int.natCast_nonneg _)), Int.toNat_natCast]
  rfl

def scanAt (content hex : List Byte) (i call fuel : ℕ) : Except Halt (Bool × ℕ) :=
  scan (regularFile content) (toInt content.length) hex fuel
    (toInt content.length - (i * advance hex : ℕ)) (i * advance hex : ℕ) call

theorem scanAt_found (hgo : ((i * advance hex : ℕ) : ℤ) < toInt content.length)
    (hseen : text hex <:+: text (window content hex i)) (call fuel : ℕ) :
    scanAt content hex i call (fuel + 1) = .ok (true, call + 1) := by
  rw [scanAt, scan, if_pos (by omega), read_window]
  simp only [(strstr_terminated _ _).mpr hseen, if_true]

theorem scanAt_finished (hgo : ((i * advance hex : ℕ) : ℤ) < toInt content.length)
    (hseen : ¬ text hex <:+: text (window content hex i))
    (hlast : ((i * advance hex + (window content hex i).length : ℕ) : ℤ) =
      toInt content.length) (call fuel : ℕ) :
    scanAt content hex i call (fuel + 1) = .ok (false, call + 1) := by
  have hunseen : ¬ strstr (window content hex i ++ [0]) (hex ++ [0]) = true :=
    fun h => hseen ((strstr_terminated _ _).mp h)
  have hdone : toInt content.length - (i * advance hex : ℕ) -
      (window content hex i).length = 0 := by omega
  rw [scanAt, scan, if_pos (by omega), read_window]
  simp only [if_neg hunseen]
  rw [if_neg (by simp only [ne_eq, not_not]; omega), hdone]
  cases fuel <;> rfl

theorem scanAt_next (hlen : hex.length < pageSize - 1)
    (hgo : ((i * advance hex : ℕ) : ℤ) < toInt content.length)
    (hseen : ¬ text hex <:+: text (window content hex i))
    (hlast : ((i * advance hex + (window content hex i).length : ℕ) : ℤ) ≠
      toInt content.length) (call fuel : ℕ) :
    scanAt content hex i call (fuel + 1) = scanAt content hex (i + 1) (call + 1) fuel := by
  have hunseen : ¬ strstr (window content hex i ++ [0]) (hex ++ [0]) = true :=
    fun h => hseen ((strstr_terminated _ _).mp h)
  rcases toInt_size content.length with ⟨hlo, hhi, -⟩
  have hfull : (window content hex i).length = advance hex + hex.length :=
    ((window_full_or_last hgo).resolve_right hlast).trans (advance_add hlen).symm
  have hsmall : (window content hex i).length ≤ 4095 :=
    (List.length_take_le _ _).trans (by decide)
  have hnext : (i + 1) * advance hex = i * advance hex + advance hex := Nat.succ_mul _ _
  have hleft : toInt (toInt content.length - (i * advance hex : ℕ) -
      (window content hex i).length) = toInt content.length - (i * advance hex : ℕ) -
      (window content hex i).length := toInt_of_lt (by omega) (by omega)
  have hsum : toInt content.length - (i * advance hex : ℕ) -
      (window content hex i).length + hex.length =
      toInt content.length - ((i + 1) * advance hex : ℕ) := by omega
  have hsize : toInt (toInt content.length - ((i + 1) * advance hex : ℕ)) =
      toInt content.length - ((i + 1) * advance hex : ℕ) :=
    toInt_of_lt (by omega) (by omega)
  have hpos : ((i * advance hex : ℕ) : ℤ) + (window content hex i).length -
      hex.length = ((i + 1) * advance hex : ℕ) := by omega
  rw [scanAt, scan, if_pos (by omega), read_window]
  simp only [if_neg hunseen]
  rw [if_pos (by omega), hleft, hsum, hsize, hpos, scanAt]

theorem scanAt_ended (hstop : ¬ ((i * advance hex : ℕ) : ℤ) < toInt content.length)
    (call fuel : ℕ) : scanAt content hex i call fuel = .ok (false, call) := by
  rw [scanAt]
  cases fuel <;> rw [scan, if_neg (by omega)]

end rounds

theorem scan_from {content hex : List Byte} (hlen : hex.length < pageSize - 1) (i call : ℕ)
    (hbefore : ∀ j < i, ((j * advance hex + (window content hex j).length : ℕ) : ℤ) ≠
      toInt content.length) :
    ∃ found call', Settles (scanAt content hex i call) (.ok (found, call')) ∧
      (found = true ↔ ∃ j, i ≤ j ∧ Reached content hex j ∧
        text hex <:+: text (window content hex j)) := by
  generalize hm : (toInt content.length - (i * advance hex : ℕ)).toNat = left
  induction left using Nat.strong_induction_on generalizing i call with
  | _ left ih =>
    by_cases hgo : ((i * advance hex : ℕ) : ℤ) < toInt content.length
    · by_cases hseen : text hex <:+: text (window content hex i)
      · exact ⟨true, call + 1, (Settles.const _).round (scanAt_found hgo hseen call),
          iff_of_true rfl ⟨i, le_rfl, ⟨hgo, hbefore⟩, hseen⟩⟩
      by_cases hlast : ((i * advance hex + (window content hex i).length : ℕ) : ℤ) =
          toInt content.length
      · refine ⟨false, call + 1,
          (Settles.const _).round (scanAt_finished hgo hseen hlast call), ?_⟩
        apply iff_of_false (by simp)
        rintro ⟨j, hij, ⟨-, hj⟩, hjseen⟩
        rcases Nat.lt_or_eq_of_le hij with hlt | rfl
        · exact hj i hlt hlast
        · exact hseen hjseen
      · have hadv := advance_add hlen
        have hnext : (i + 1) * advance hex = i * advance hex + advance hex := Nat.succ_mul _ _
        have hbefore' : ∀ j < i + 1,
            ((j * advance hex + (window content hex j).length : ℕ) : ℤ) ≠
              toInt content.length := by
          intro j hj
          rcases Nat.lt_or_eq_of_le (Nat.le_of_lt_succ hj) with hlt | rfl
          · exact hbefore j hlt
          · exact hlast
        rcases ih (toInt content.length - ((i + 1) * advance hex : ℕ)).toNat (by omega) (i + 1)
          (call + 1) hbefore' rfl with ⟨found, call', hsettles, hiff⟩
        refine ⟨found, call', hsettles.round (scanAt_next hlen hgo hseen hlast call),
          hiff.trans ⟨?_, ?_⟩⟩
        · rintro ⟨j, hij, hj⟩
          exact ⟨j, by omega, hj⟩
        · rintro ⟨j, hij, hj, hjseen⟩
          rcases Nat.lt_or_eq_of_le hij with hlt | rfl
          · exact ⟨j, hlt, hj, hjseen⟩
          · exact absurd hjseen hseen
    · refine ⟨false, call, (Settles.const _).congr (scanAt_ended hgo call), ?_⟩
      apply iff_of_false (by simp)
      rintro ⟨j, hij, ⟨hj, -⟩, -⟩
      have hmono : i * advance hex ≤ j * advance hex := Nat.mul_le_mul_right _ hij
      omega

/-- On a regular file the loop ends, and finds the pattern if and only if it is visible. -/
theorem scan_visible {content hex : List Byte} (hlen : hex.length < pageSize - 1) (call : ℕ) :
    ∃ found call', Settles (fun fuel => scan (regularFile content) (toInt content.length) hex
        fuel (toInt content.length) 0 call) (.ok (found, call')) ∧
      (found = true ↔ Visible content hex) := by
  rcases @scan_from content hex hlen 0 call (by simp) with ⟨found, call', hsettles, hiff⟩
  refine ⟨found, call', hsettles.congr fun fuel => ?_, hiff.trans ?_⟩
  · simp [scanAt]
  · simp [Visible]

theorem not_visible_of_nonpos {content hex : List Byte} (h : toInt content.length ≤ 0) :
    ¬ Visible content hex := by
  rintro ⟨i, ⟨hi, -⟩, -⟩
  omega

theorem visible_nil {content : List Byte} (h : 0 < toInt content.length) :
    Visible content [] := by
  refine ⟨0, ⟨?_, by simp⟩, List.nil_infix⟩
  rw [Nat.zero_mul]
  exact h

theorem scan_nonpos {fileSize : ℤ} (h : ¬ 0 < fileSize) (inputFile : VFile)
    (originalFileSize : ℤ) (hex : List Byte) (fuel : ℕ) (fPos : ℤ) (call : ℕ) :
    scan inputFile originalFileSize hex fuel fileSize fPos call = .ok (false, call) := by
  cases fuel <;> rw [scan, if_neg h]

theorem occurs_of_visible {content hex : List Byte} (h : Visible content hex) :
    text hex <:+: content := by
  rcases h with ⟨i, -, hseen⟩
  apply hseen.trans
  apply (List.takeWhile_prefix _).isInfix.trans
  exact (List.take_prefix _ _).isInfix.trans (List.drop_suffix _ _).isInfix

theorem window_small {content hex : List Byte} (h : content.length < pageSize) :
    window content hex 0 = content := by
  rw [window, Nat.zero_mul, List.drop_zero, List.take_of_length_le (Nat.le_sub_one_of_lt h)]

theorem reached_small {content hex : List Byte} {i : ℕ} (h : content.length < pageSize)
    (hr : Reached content hex i) : content ≠ [] ∧ i = 0 := by
  have hpage : pageSize = 4096 := rfl
  have hlen : toInt content.length = content.length := toInt_natCast (by omega)
  obtain ⟨hstart, hbefore⟩ := hr
  rcases Nat.eq_zero_or_pos i with hi | hi
  · refine ⟨?_, hi⟩
    rintro rfl
    simp [toInt, hi] at hstart
  · have hended := hbefore 0 hi
    rw [window_small h, Nat.zero_mul, Nat.zero_add, hlen] at hended
    exact absurd rfl hended

theorem visible_small {content hex : List Byte} (h : content.length < pageSize) :
    Visible content hex ↔ content ≠ [] ∧ text hex <:+: text content := by
  have hpage : pageSize = 4096 := rfl
  have hlen : toInt content.length = content.length := toInt_natCast (by omega)
  constructor
  · rintro ⟨i, hr, hseen⟩
    obtain ⟨hne, rfl⟩ := reached_small h hr
    rw [window_small h] at hseen
    exact ⟨hne, hseen⟩
  · rintro ⟨hne, hseen⟩
    have hpos := List.length_pos_iff.mpr hne
    refine ⟨0, ⟨by omega, by simp⟩, ?_⟩
    rwa [window_small h]

theorem window_covers {before hex after : List Byte} {i : ℕ}
    (hfrom : i * advance hex ≤ before.length)
    (hto : before.length + hex.length ≤ i * advance hex + (pageSize - 1)) :
    hex <:+: window (before ++ hex ++ after) hex i := by
  have hdrop : (before ++ hex ++ after).drop (i * advance hex) =
      before.drop (i * advance hex) ++ hex ++ after := by
    rw [List.append_assoc, List.drop_append_of_le_length hfrom, ← List.append_assoc]
  have hlen : (before.drop (i * advance hex) ++ hex).length ≤ pageSize - 1 := by
    rw [List.length_append, List.length_drop]
    omega
  rw [window, hdrop, List.take_append, List.take_of_length_le hlen]
  exact ⟨_, _, rfl⟩

/-- The overlap is long enough: no occurrence falls between two windows. -/
theorem exists_window {before hex after : List Byte} (hlen : hex.length < pageSize - 1) :
    ∃ i, hex <:+: window (before ++ hex ++ after) hex i ∧ i * advance hex ≤ before.length ∧
      ∀ j < i, j * advance hex + (pageSize - 1) < before.length + hex.length := by
  have hadv := advance_add hlen
  have hex_covered : ∃ i, before.length + hex.length ≤ i * advance hex + (pageSize - 1) := by
    refine ⟨before.length + hex.length, ?_⟩
    have := Nat.le_mul_of_pos_right (before.length + hex.length) (by omega : 0 < advance hex)
    omega
  have hfind := Nat.find_spec hex_covered
  have hbefore : ∀ j < Nat.find hex_covered,
      j * advance hex + (pageSize - 1) < before.length + hex.length := by
    intro j hj
    exact Nat.lt_of_not_le (Nat.find_min hex_covered hj)
  have hfrom : Nat.find hex_covered * advance hex ≤ before.length := by
    rcases Nat.eq_zero_or_pos (Nat.find hex_covered) with hzero | hpos
    · rw [hzero, Nat.zero_mul]
      exact Nat.zero_le _
    · have hlast := hbefore (Nat.find hex_covered - 1) (Nat.sub_lt hpos Nat.one_pos)
      have hnext : (Nat.find hex_covered - 1) * advance hex + advance hex =
          Nat.find hex_covered * advance hex := by
        rw [← Nat.succ_mul, Nat.succ_eq_add_one, Nat.sub_add_cancel hpos]
      omega
  exact ⟨_, window_covers hfrom hfind, hfrom, hbefore⟩

theorem exists_reached {content hex : List Byte} (hlen : hex.length < pageSize - 1)
    (hpos : 0 < toInt content.length) (hsize : content.length < 2147483648)
    (hpart : hex <:+: content) : ∃ i, Reached content hex i ∧ hex <:+: window content hex i := by
  have hint : toInt content.length = content.length := toInt_natCast hsize
  by_cases hempty : hex = []
  · subst hempty
    refine ⟨0, ⟨?_, by simp⟩, List.nil_infix⟩
    rw [Nat.zero_mul]
    exact hpos
  · obtain ⟨before, after, rfl⟩ := hpart
    have hsome := List.length_pos_iff.mpr hempty
    have htotal : (before ++ hex ++ after).length =
        before.length + hex.length + after.length := by
      rw [List.length_append, List.length_append]
    rcases @exists_window before hex after hlen with ⟨i, hcover, hfrom, hbefore⟩
    refine ⟨i, ⟨by omega, fun j hj => ?_⟩, hcover⟩
    have hlast := hbefore j hj
    have hwindow : (window (before ++ hex ++ after) hex j).length ≤ pageSize - 1 :=
      List.length_take_le _ _
    omega

/-- Without zeros, a pattern is visible if and only if it occurs. -/
theorem visible_iff_occurs {content hex : List Byte} (hlen : hex.length < pageSize - 1)
    (hcontent : NulFree content) (hhex : NulFree hex) (hne : content ≠ [])
    (hsize : content.length < 2147483648) : Visible content hex ↔ hex <:+: content := by
  have hint : toInt content.length = content.length := toInt_natCast hsize
  have hpos := List.length_pos_iff.mpr hne
  constructor
  · intro hv
    have hpart := occurs_of_visible hv
    rwa [text_of_nulFree hhex] at hpart
  · intro hpart
    obtain ⟨i, hreached, hcover⟩ := exists_reached hlen (by omega) hsize hpart
    have hfree : NulFree (window content hex i) := fun hmem =>
      hcontent (List.mem_of_mem_drop (List.mem_of_mem_take hmem))
    refine ⟨i, hreached, ?_⟩
    rwa [text_of_nulFree hhex, text_of_nulFree hfree]

def Searched (content hex : List Byte) (i : ℕ) : Prop :=
  Reached content hex i ∧ ∀ j < i, ¬ text hex <:+: text (window content hex j)

/-- strstr misses nothing: the pattern has no zero byte, and behind a zero byte of the window
there are only zeros. -/
def SeenWhole (hex w : List Byte) : Prop := NulFree hex ∧ ∀ x ∈ w.dropWhile (· ≠ 0), x = 0

theorem Reached.of_lt {content hex : List Byte} {i j : ℕ} (h : Reached content hex i)
    (hj : j < i) : Reached content hex j := by
  obtain ⟨hstart, hbefore⟩ := h
  have hle := Nat.mul_le_mul_right (advance hex) hj.le
  exact ⟨by omega, fun k hk => hbefore k (hk.trans hj)⟩

theorem searched_of_unseen {content hex : List Byte} {i : ℕ} (h : Reached content hex i)
    (hunseen : ¬ Visible content hex) : Searched content hex i :=
  ⟨h, fun j hj hshown => hunseen ⟨j, h.of_lt hj, hshown⟩⟩

theorem SeenWhole.infix {hex w : List Byte} (h : SeenWhole hex w) (hpart : hex <:+: w) :
    text hex <:+: text w := by
  obtain ⟨hhex, hzeros⟩ := h
  have hnot : ∀ x ∈ hex, x ∉ w.dropWhile (· ≠ 0) := by
    intro x hx hdropped
    exact hhex (hzeros x hdropped ▸ hx)
  have hw : text w ++ w.dropWhile (· ≠ 0) = w := List.takeWhile_append_dropWhile
  obtain ⟨before, after, hsplit⟩ := hpart
  rw [text_of_nulFree hhex]
  -- the pattern ends before the zeros, or has none of its bytes in front of them
  rcases List.append_eq_append_iff.mp (hsplit.trans hw.symm) with
    ⟨a, htext, -⟩ | ⟨c, hover, hdropped⟩
  · exact ⟨before, a, htext.symm⟩
  rcases List.append_eq_append_iff.mp hover with ⟨a, htext, hend⟩ | ⟨c', -, hc⟩
  · cases c with
    | nil => exact ⟨before, [], by rw [htext, hend, List.append_nil, List.append_nil]⟩
    | cons x c =>
      refine absurd ?_ (hnot x (by simp [hend]))
      rw [hdropped]
      exact List.mem_cons_self
  · cases hex with
    | nil => exact List.nil_infix
    | cons x hex =>
      refine absurd ?_ (hnot x List.mem_cons_self)
      rw [hdropped, hc]
      simp

end FileScan
