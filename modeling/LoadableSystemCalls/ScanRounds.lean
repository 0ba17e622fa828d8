import LoadableSystemCalls.FileScan
import LoadableSystemCalls.TransitionRuns

/-! # The rounds of the scan (anti_module.c)

What `while (file_size > 0)` does from one loop head to the next, whatever the reads of the
input file give, and when that keeps it inside its buffer and lets it end. -/
namespace ScanRounds

open CStrings FueledLoops KernelTypes FileScan TransitionRuns

structure Head where
  fileSize : ℤ
  fPos : ℤ
  call : ℕ
  deriving DecidableEq, Repr

section rounds
variable (inputFile : VFile) (originalFileSize : ℤ) (hex : List Byte)

/-- The next loop head, when `buff` was read and does not show the pattern. -/
def Head.after (h : Head) (buff : List Byte) : Head :=
  if h.fPos + buff.length ≠ originalFileSize then
    ⟨toInt (toInt (h.fileSize - buff.length) + hex.length),
      h.fPos + buff.length - hex.length, h.call + 1⟩
  else ⟨toInt (h.fileSize - buff.length), h.fPos + buff.length, h.call + 1⟩

def Round (h : Head) (buff : List Byte) (h' : Head) : Prop :=
  0 < h.fileSize ∧ inputFile.read h.call h.fPos (pageSize - 1) = some buff ∧
  strstr (buff ++ [0]) (hex ++ [0]) = false ∧ h' = h.after originalFileSize hex buff

/-- The loop from a loop head. -/
def scanFrom (h : Head) (fuel : ℕ) : Except Halt (Bool × ℕ) :=
  scan inputFile originalFileSize hex fuel h.fileSize h.fPos h.call

def Reaches (call : ℕ) (h : Head) : Prop :=
  ∃ bs, Run (Round inputFile originalFileSize hex) ⟨originalFileSize, 0, call⟩ bs h

variable {inputFile originalFileSize hex} {h h' : Head} {buff : List Byte}

theorem scan_round (hr : Round inputFile originalFileSize hex h buff h') (fuel : ℕ) :
    scanFrom inputFile originalFileSize hex h (fuel + 1) =
      scanFrom inputFile originalFileSize hex h' fuel := by
  rcases hr with ⟨hgo, hread, hunseen, rfl⟩
  rw [scanFrom, scan, if_pos hgo, hread]
  simp only [hunseen, Bool.false_eq_true, if_false, Head.after, scanFrom]
  split <;> rfl

theorem scan_found (hgo : 0 < h.fileSize)
    (hread : inputFile.read h.call h.fPos (pageSize - 1) = some buff)
    (hseen : strstr (buff ++ [0]) (hex ++ [0]) = true) (fuel : ℕ) :
    scanFrom inputFile originalFileSize hex h (fuel + 1) = .ok (true, h.call + 1) := by
  rw [scanFrom, scan, if_pos hgo, hread]
  simp only [hseen, if_true]

theorem scan_ended (hstop : ¬ 0 < h.fileSize) (fuel : ℕ) :
    scanFrom inputFile originalFileSize hex h fuel = .ok (false, h.call) :=
  scan_nonpos hstop inputFile originalFileSize hex fuel h.fPos h.call

theorem Reaches.start (call : ℕ) :
    Reaches inputFile originalFileSize hex call ⟨originalFileSize, 0, call⟩ := ⟨[], .nil _⟩

theorem Reaches.round {call : ℕ} (hh : Reaches inputFile originalFileSize hex call h)
    (hr : Round inputFile originalFileSize hex h buff h') :
    Reaches inputFile originalFileSize hex call h' := by
  obtain ⟨bs, hrun⟩ := hh
  exact ⟨bs ++ [buff], hrun.snoc hr⟩

theorem Reaches.invariant {call : ℕ} (hh : Reaches inputFile originalFileSize hex call h)
    {P : Head → Prop} (hs : P ⟨originalFileSize, 0, call⟩)
    (hp : ∀ h buff h', P h → Round inputFile originalFileSize hex h buff h' → P h') : P h := by
  obtain ⟨bs, hrun⟩ := hh
  exact hrun.invariant hp hs

end rounds

def FitsInt (x : ℤ) : Prop := -2147483648 ≤ x ∧ x < 2147483648

theorem FitsInt.toInt {x : ℤ} (h : FitsInt x) : toInt x = x := toInt_of_lt h.1 h.2

section reads
variable (inputFile : VFile) (originalFileSize : ℤ) (hex : List Byte) (call : ℕ)

/-- The loop ends; at every head the file position is not negative, the read before the
index gives one inside the buffer, and the new file_size fits an int. -/
structure Safe : Prop where
  ends : ∃ r, Settles (scanFrom inputFile originalFileSize hex ⟨originalFileSize, 0, call⟩)
    (.ok r)
  position : ∀ h, Reaches inputFile originalFileSize hex call h → 0 ≤ h.fPos
  index : ∀ h, Reaches inputFile originalFileSize hex call h → 0 < h.fileSize →
    ∃ buff, inputFile.read h.call h.fPos (pageSize - 1) = some buff ∧ buff.length < pageSize
  fits : ∀ h buff h', Reaches inputFile originalFileSize hex call h →
    Round inputFile originalFileSize hex h buff h' → FitsInt (h.fileSize - buff.length) ∧
      (h.fPos + buff.length ≠ originalFileSize →
        FitsInt (h.fileSize - buff.length + hex.length))

/-- The sum of the bytes of the first `k` reads, less the pattern's length for each. -/
def position : ℕ → ℤ
  | 0 => 0
  | k + 1 => position k +
      ((inputFile.read (call + k) (position k) (pageSize - 1)).getD []).length - hex.length

def readAt (k : ℕ) : Option (List Byte) :=
  inputFile.read (call + k) (position inputFile hex call k) (pageSize - 1)

/-- The `k`-th read shows the pattern, or reaches the size. -/
def Last (k : ℕ) : Prop :=
  ∃ buff, readAt inputFile hex call k = some buff ∧ (text hex <:+: text buff ∨
    position inputFile hex call k + buff.length = originalFileSize ∨
    originalFileSize ≤ position inputFile hex call (k + 1))

/-- Some read shows the pattern or reaches the size; none fails up to it, and none before
it leaves the running position negative. -/
def Completes : Prop :=
  ∃ n, Last inputFile originalFileSize hex call n ∧
    (∀ k < n, (readAt inputFile hex call k).isSome) ∧
    ∀ k < n, 0 ≤ position inputFile hex call (k + 1)

end reads

section
variable {inputFile : VFile} {size : ℤ} {hex : List Byte} {call : ℕ}

def headAt (inputFile : VFile) (size : ℤ) (hex : List Byte) (call k : ℕ) : Head :=
  ⟨size - position inputFile hex call k, position inputFile hex call k, call + k⟩

theorem position_succ {k : ℕ} {buff : List Byte} (h : readAt inputFile hex call k = some buff) :
    position inputFile hex call (k + 1) =
      position inputFile hex call k + buff.length - hex.length := by
  rw [readAt] at h
  rw [position, h, Option.getD_some]

theorem read_short {k : ℕ} {buff : List Byte} (h : readAt inputFile hex call k = some buff) :
    buff.length < pageSize :=
  Nat.lt_of_le_of_lt (inputFile.read_le _ _ _ _ h) (by decide)

theorem sizes_fit (hsize : size < 2147483648) (hlen : hex.length < pageSize - 1) {k : ℕ}
    {buff : List Byte} (hread : readAt inputFile hex call k = some buff)
    (hin : position inputFile hex call k < size)
    (hnext : 0 ≤ position inputFile hex call k + buff.length - hex.length) :
    FitsInt (size - position inputFile hex call k - buff.length) ∧
      FitsInt (size - position inputFile hex call k - buff.length + hex.length) := by
  have hshort : buff.length < 4096 := read_short hread
  have hlen' : hex.length < 4095 := hlen
  unfold FitsInt
  omega

theorem after_headAt (hsize : size < 2147483648) (hlen : hex.length < pageSize - 1) {k : ℕ}
    {buff : List Byte} (hread : readAt inputFile hex call k = some buff)
    (hin : position inputFile hex call k < size)
    (hnext : 0 ≤ position inputFile hex call (k + 1))
    (hmore : position inputFile hex call k + buff.length ≠ size) :
    (headAt inputFile size hex call k).after size hex buff =
      headAt inputFile size hex call (k + 1) := by
  have hsucc := position_succ hread
  rw [hsucc] at hnext
  obtain ⟨hfit, hfit'⟩ := sizes_fit hsize hlen hread hin hnext
  rw [Head.after, headAt, headAt]
  simp only [if_pos hmore]
  rw [hfit.toInt, hfit'.toInt, hsucc]
  congr 1
  omega

theorem unseen_iff {buff : List Byte} : strstr (buff ++ [0]) (hex ++ [0]) = false ↔
    ¬ text hex <:+: text buff := by
  rw [← strstr_terminated buff hex, Bool.not_eq_true]

theorem not_last {k : ℕ} {buff : List Byte} (h : ¬ Last inputFile size hex call k)
    (hread : readAt inputFile hex call k = some buff) :
    ¬ text hex <:+: text buff ∧ position inputFile hex call k + buff.length ≠ size ∧
      position inputFile hex call (k + 1) < size := by
  refine ⟨fun hseen => h ⟨buff, hread, Or.inl hseen⟩,
    fun hend => h ⟨buff, hread, Or.inr (Or.inl hend)⟩, ?_⟩
  by_contra hbeyond
  exact h ⟨buff, hread, Or.inr (Or.inr (Int.not_lt.mp hbeyond))⟩

/-- The reads up to `n`, the first that is last. -/
structure Reading (inputFile : VFile) (size : ℤ) (hex : List Byte) (call n : ℕ) : Prop where
  last : Last inputFile size hex call n
  earlier : ∀ k < n, ∃ buff, readAt inputFile hex call k = some buff ∧
    ¬ text hex <:+: text buff ∧ position inputFile hex call k + buff.length ≠ size
  inside : ∀ k ≤ n, 0 ≤ position inputFile hex call k ∧ position inputFile hex call k < size

theorem reading_of_completes (hsize : 0 < size) (h : Completes inputFile size hex call) :
    ∃ n, Reading inputFile size hex call n := by
  classical
  obtain ⟨m, hlast, hreads, hpositions⟩ := h
  have hex_last : ∃ n, Last inputFile size hex call n := ⟨m, hlast⟩
  have hle : Nat.find hex_last ≤ m := Nat.find_min' hex_last hlast
  have hbefore : ∀ k < Nat.find hex_last, ∃ buff, readAt inputFile hex call k = some buff ∧
      ¬ text hex <:+: text buff ∧ position inputFile hex call k + buff.length ≠ size ∧
      position inputFile hex call (k + 1) < size := by
    intro k hk
    obtain ⟨buff, hread⟩ := Option.isSome_iff_exists.mp (hreads k (by omega))
    exact ⟨buff, hread, not_last (Nat.find_min hex_last hk) hread⟩
  refine ⟨Nat.find hex_last, Nat.find_spec hex_last, ?_, ?_⟩
  · intro k hk
    obtain ⟨buff, hread, hunseen, hmore, -⟩ := hbefore k hk
    exact ⟨buff, hread, hunseen, hmore⟩
  · intro k hk
    cases k with
    | zero => exact ⟨le_rfl, hsize⟩
    | succ k =>
      obtain ⟨-, -, -, -, hin⟩ := hbefore k hk
      exact ⟨hpositions k (by omega), hin⟩

section reading
variable {n : ℕ} (hint : size < 2147483648) (hlen : hex.length < pageSize - 1)
  (h : Reading inputFile size hex call n)
include hint hlen h

theorem Reading.round {k : ℕ} (hk : k < n) : ∃ buff,
    Round inputFile size hex (headAt inputFile size hex call k) buff
      (headAt inputFile size hex call (k + 1)) := by
  obtain ⟨buff, hread, hunseen, hmore⟩ := h.earlier k hk
  have hin := (h.inside k hk.le).2
  have hnext := (h.inside (k + 1) hk).1
  have hafter := after_headAt hint hlen hread hin hnext hmore
  refine ⟨buff, ?_, hread, unseen_iff.mpr hunseen, hafter.symm⟩
  exact Int.sub_pos_of_lt hin

theorem Reading.after_last {buff : List Byte} {h' : Head}
    (hr : Round inputFile size hex (headAt inputFile size hex call n) buff h') :
    h'.fileSize ≤ 0 ∧ 0 ≤ h'.fPos ∧
      FitsInt (size - position inputFile hex call n - buff.length) ∧
      (position inputFile hex call n + buff.length ≠ size →
        FitsInt (size - position inputFile hex call n - buff.length + hex.length)) := by
  obtain ⟨-, hread, hunseen, rfl⟩ := hr
  obtain ⟨hpos, hin⟩ := h.inside n le_rfl
  obtain ⟨buff', hread', hends⟩ := h.last
  obtain rfl : buff' = buff := Option.some.inj (hread'.symm.trans hread)
  have hends' := hends.resolve_left (unseen_iff.mp hunseen)
  have hshort : buff'.length < 4096 := read_short hread'
  have hsucc := position_succ hread'
  by_cases hmore : position inputFile hex call n + buff'.length ≠ size
  · have hbeyond := hends'.resolve_left hmore
    rw [hsucc] at hbeyond
    obtain ⟨hfit, hfit'⟩ := sizes_fit hint hlen hread' hin (by omega)
    refine ⟨?_, ?_, hfit, fun _ => hfit'⟩
    · rw [Head.after, headAt]
      simp only [if_pos hmore]
      rw [hfit.toInt, hfit'.toInt]
      omega
    · rw [Head.after, headAt]
      simp only [if_pos hmore]
      omega
  · have hend : position inputFile hex call n + buff'.length = size := not_not.mp hmore
    have hzero : size - position inputFile hex call n - buff'.length = 0 := by omega
    have hfit : FitsInt (size - position inputFile hex call n - buff'.length) := by
      rw [hzero]
      exact ⟨by decide, by decide⟩
    refine ⟨?_, ?_, hfit, fun hne => absurd hend hne⟩
    · rw [Head.after, headAt]
      simp only [if_neg hmore]
      rw [hfit.toInt, hzero]
    · rw [Head.after, headAt]
      simp only [if_neg hmore]
      omega

theorem Reading.heads {x : Head} (hx : Reaches inputFile size hex call x) :
    (∃ k ≤ n, x = headAt inputFile size hex call k) ∨ x.fileSize ≤ 0 ∧ 0 ≤ x.fPos := by
  apply hx.invariant (P := fun x => (∃ k ≤ n, x = headAt inputFile size hex call k) ∨
    x.fileSize ≤ 0 ∧ 0 ≤ x.fPos)
  · refine Or.inl ⟨0, Nat.zero_le n, ?_⟩
    rw [headAt, position, Int.sub_zero, Nat.add_zero]
  · intro y buff z hy hr
    rcases hy with ⟨k, hk, rfl⟩ | ⟨hdone, -⟩
    · rcases Nat.lt_or_eq_of_le hk with hlt | rfl
      · obtain ⟨buff', hgo, hread, hunseen, hnext⟩ := h.round hint hlen hlt
        obtain rfl : buff' = buff := Option.some.inj (hread.symm.trans hr.2.1)
        exact Or.inl ⟨k + 1, hlt, hr.2.2.2.trans hnext.symm⟩
      · obtain ⟨hdone, hpos, -⟩ := h.after_last hint hlen hr
        exact Or.inr ⟨hdone, hpos⟩
    · have hgo := hr.1
      omega

theorem Reading.ends {k : ℕ} (hk : k ≤ n) :
    ∃ r, Settles (scanFrom inputFile size hex (headAt inputFile size hex call k)) (.ok r) := by
  generalize hleft : n - k = left
  induction left generalizing k with
  | zero =>
    obtain rfl : k = n := by omega
    obtain ⟨buff, hread, -⟩ := h.last
    have hgo : 0 < (headAt inputFile size hex call k).fileSize :=
      Int.sub_pos_of_lt (h.inside k le_rfl).2
    cases hseen : strstr (buff ++ [0]) (hex ++ [0]) with
    | true => exact ⟨_, (Settles.const _).round (scan_found hgo hread hseen)⟩
    | false =>
      have hr : Round inputFile size hex (headAt inputFile size hex call k) buff
        ((headAt inputFile size hex call k).after size hex buff) := ⟨hgo, hread, hseen, rfl⟩
      have hdone := (h.after_last hint hlen hr).1
      have hended := (Settles.const _).congr
        (@scan_ended inputFile size hex _ (Int.not_lt.mpr hdone))
      exact ⟨_, hended.round (scan_round hr)⟩
  | succ left ih =>
    obtain ⟨buff, hr⟩ := h.round hint hlen (by omega : k < n)
    obtain ⟨r, hsettles⟩ := ih (by omega : k + 1 ≤ n) (by omega)
    exact ⟨r, hsettles.round (scan_round hr)⟩

theorem Reading.safe : Safe inputFile size hex call := by
  have hstart : headAt inputFile size hex call 0 = ⟨size, 0, call⟩ := by
    rw [headAt, position, Int.sub_zero, Nat.add_zero]
  constructor
  · obtain ⟨r, hr⟩ := h.ends hint hlen (Nat.zero_le n)
    rw [hstart] at hr
    exact ⟨r, hr⟩
  · intro x hx
    rcases h.heads hint hlen hx with ⟨k, hk, rfl⟩ | ⟨-, hpos⟩
    · exact (h.inside k hk).1
    · exact hpos
  · intro x hx hgo
    rcases h.heads hint hlen hx with ⟨k, hk, rfl⟩ | ⟨hdone, -⟩
    · rcases Nat.lt_or_eq_of_le hk with hlt | rfl
      · obtain ⟨buff, hread, -⟩ := h.earlier k hlt
        exact ⟨buff, hread, read_short hread⟩
      · obtain ⟨buff, hread, -⟩ := h.last
        exact ⟨buff, hread, read_short hread⟩
    · omega
  · intro x buff y hx hr
    rcases h.heads hint hlen hx with ⟨k, hk, rfl⟩ | ⟨hdone, -⟩
    · rcases Nat.lt_or_eq_of_le hk with hlt | rfl
      · have hread : readAt inputFile hex call k = some buff := hr.2.1
        have hnext := (h.inside (k + 1) hlt).1
        rw [position_succ hread] at hnext
        obtain ⟨hfit, hfit'⟩ := sizes_fit hint hlen hread (h.inside k hk).2 hnext
        exact ⟨hfit, fun _ => hfit'⟩
      · obtain ⟨-, -, hfit⟩ := h.after_last hint hlen hr
        exact hfit
    · have hgo := hr.1
      omega

end reading

theorem round_of_not_last (hint : size < 2147483648) (hlen : hex.length < pageSize - 1)
    (hsafe : Safe inputFile size hex call) {k : ℕ}
    (hhead : Reaches inputFile size hex call (headAt inputFile size hex call k))
    (hin : position inputFile hex call k < size) (hlast : ¬ Last inputFile size hex call k) :
    ∃ buff, readAt inputFile hex call k = some buff ∧
      Round inputFile size hex (headAt inputFile size hex call k) buff
        (headAt inputFile size hex call (k + 1)) ∧
      0 ≤ position inputFile hex call (k + 1) ∧ position inputFile hex call (k + 1) < size := by
  have hgo : 0 < (headAt inputFile size hex call k).fileSize := Int.sub_pos_of_lt hin
  obtain ⟨buff, hread, -⟩ := hsafe.index _ hhead hgo
  obtain ⟨hunseen, hmore, hin'⟩ := not_last hlast hread
  have hround : Round inputFile size hex (headAt inputFile size hex call k) buff
      ((headAt inputFile size hex call k).after size hex buff) :=
    ⟨hgo, hread, unseen_iff.mpr hunseen, rfl⟩
  have hnext : 0 ≤ position inputFile hex call (k + 1) := by
    have hpos := hsafe.position _ (hhead.round hround)
    rw [Head.after, headAt] at hpos
    simp only [if_pos hmore] at hpos
    rw [position_succ hread]
    exact hpos
  rw [after_headAt hint hlen hread hin hnext hmore] at hround
  exact ⟨buff, hread, hround, hnext, hin'⟩

theorem last_of_ends (hint : size < 2147483648) (hlen : hex.length < pageSize - 1)
    (hsafe : Safe inputFile size hex call) {fuel k : ℕ} {r : Bool × ℕ}
    (hr : scanFrom inputFile size hex (headAt inputFile size hex call k) fuel = .ok r)
    (hhead : Reaches inputFile size hex call (headAt inputFile size hex call k))
    (hin : position inputFile hex call k < size) :
    ∃ n, Last inputFile size hex call n ∧
      (∀ j < n, k ≤ j → (readAt inputFile hex call j).isSome) ∧
      ∀ j < n, k ≤ j → 0 ≤ position inputFile hex call (j + 1) := by
  induction fuel generalizing k with
  | zero =>
    have hgo : 0 < (headAt inputFile size hex call k).fileSize := Int.sub_pos_of_lt hin
    rw [scanFrom, scan, if_pos hgo] at hr
    cases hr
  | succ fuel ih =>
    by_cases hlast : Last inputFile size hex call k
    · exact ⟨k, hlast, fun j hj hk => by omega, fun j hj hk => by omega⟩
    · obtain ⟨buff, hread, hround, hnext, hin'⟩ :=
        round_of_not_last hint hlen hsafe hhead hin hlast
      rw [scan_round hround] at hr
      obtain ⟨n, hn, hreads, hpositions⟩ := ih hr (hhead.round hround) hin'
      refine ⟨n, hn, ?_, ?_⟩
      · intro j hj hk
        rcases Nat.lt_or_eq_of_le hk with hlt | rfl
        · exact hreads j hj hlt
        · rw [hread]
          rfl
      · intro j hj hk
        rcases Nat.lt_or_eq_of_le hk with hlt | rfl
        · exact hpositions j hj hlt
        · exact hnext

theorem completes_of_safe (hsize : 0 < size) (hint : size < 2147483648)
    (hlen : hex.length < pageSize - 1) (hsafe : Safe inputFile size hex call) :
    Completes inputFile size hex call := by
  have hstart : headAt inputFile size hex call 0 = ⟨size, 0, call⟩ := by
    rw [headAt, position, Int.sub_zero, Nat.add_zero]
  obtain ⟨r, fuel, hr⟩ := hsafe.ends
  have hended := hr fuel le_rfl
  rw [← hstart] at hended
  obtain ⟨n, hn, hreads, hpositions⟩ :=
    last_of_ends hint hlen hsafe hended (hstart ▸ Reaches.start call) hsize
  exact ⟨n, hn, fun j hj => hreads j hj (Nat.zero_le j),
    fun j hj => hpositions j hj (Nat.zero_le j)⟩

end

/-- The loop is safe if and only if some read shows the pattern or reaches the size, and up to
the first such read no read fails and none leaves the running position negative. -/
theorem scan_safe_iff {inputFile : VFile} {hex : List Byte} (hsize : 0 < inputFile.iSize)
    (hint : inputFile.iSize < 2147483648) (hlen : hex.length < pageSize - 1) (call : ℕ) :
    Safe inputFile (toInt inputFile.iSize) hex call ↔
      Completes inputFile inputFile.iSize hex call := by
  rw [toInt_of_lt (by omega) hint]
  constructor
  · exact completes_of_safe hsize hint hlen
  · intro h
    obtain ⟨n, hn⟩ := reading_of_completes hsize h
    exact hn.safe hint hlen

theorem scan_safe_iff_oneRead : Safe (regularFile [65, 66]) (toInt 2) [66] 0 := by
  apply (@scan_safe_iff (regularFile [65, 66]) [66] (by decide) (by decide) (by decide) 0).mpr
  refine ⟨0, ⟨[65, 66], by decide, Or.inl (by decide)⟩, ?_, ?_⟩
  · intro k hk
    omega
  · intro k hk
    omega

theorem failed_read_le (_ : ℕ) (_ : ℤ) (count : ℕ) (b : List Byte)
    (hb : (none : Option (List Byte)) = some b) : b.length ≤ count := by cases hb

def unreadable (size : ℤ) : VFile where
  iSize := size
  read := fun _ _ _ => none
  read_le := failed_read_le

/-- A pseudo-file with a size and nothing to read. -/
def hollow (size : ℤ) : VFile where
  iSize := size
  read := fun _ _ _ => some []
  read_le := by
    intro call pos count b hb
    obtain rfl := Option.some.inj hb
    exact Nat.zero_le count

/-- A failed read gives an index before the buffer; an empty one takes the position before
the file. -/
theorem bad_reads : ¬ Safe (unreadable 4096) (toInt 4096) [65] 0 ∧
    ¬ Safe (hollow 4096) (toInt 4096) [65] 0 := by
  constructor
  · intro h
    obtain ⟨buff, hread, -⟩ := h.index _ (Reaches.start 0) (by decide)
    cases hread
  · intro h
    have hround : Round (hollow 4096) (toInt 4096) [65] ⟨toInt 4096, 0, 0⟩ [] ⟨4097, -1, 1⟩ :=
      ⟨by decide, rfl, by decide, by decide⟩
    have hpos := h.position _ ((Reaches.start 0).round hround)
    exact absurd hpos (by decide)

section regular
variable {content hex : List Byte} {call : ℕ}

theorem regular_head (hsize : content.length < 2147483648) (hlen : hex.length < pageSize - 1)
    {h : Head} (hh : Reaches (regularFile content) (toInt content.length) hex call h) :
    h.fileSize = content.length - h.fPos ∧ 0 ≤ h.fPos ∧ h.fPos ≤ content.length := by
  have hint : toInt content.length = content.length := toInt_natCast hsize
  have hlen' : hex.length < 4095 := hlen
  rw [hint] at hh
  apply hh.invariant (P := fun h => h.fileSize = content.length - h.fPos ∧ 0 ≤ h.fPos ∧
    h.fPos ≤ content.length)
  · dsimp only
    omega
  · rintro ⟨fileSize, fPos, call⟩ buff h' ⟨hleft, hpos, hin⟩ ⟨hgo, hread, -, rfl⟩
    dsimp only at hleft hpos hin hgo hread
    have hbuff : buff.length = min 4095 (content.length - fPos.toNat) := by
      simp only [regularFile, if_neg (Int.not_lt.mpr hpos)] at hread
      rw [← Option.some.inj hread, List.length_take, List.length_drop]
      rfl
    rw [Head.after]
    dsimp only
    split
    · rw [toInt_of_lt (x := fileSize - buff.length) (by omega) (by omega),
        toInt_of_lt (by omega) (by omega)]
      dsimp only
      omega
    · rw [toInt_of_lt (by omega) (by omega)]
      dsimp only
      omega

/-- On a regular file without zeros the windowed search ends and is the search of the whole
file. -/
theorem windowed_search_exact (hcontent : NulFree content) (hsize : content.length < 2147483648)
    (hhex : NulFree hex) (hne : hex ≠ []) (hlen : hex.length < pageSize - 1) (call : ℕ) :
    (∃ found calls, Settles (fun fuel => scan (regularFile content) (toInt content.length) hex
        fuel (toInt content.length) 0 call) (.ok (found, calls)) ∧
      (found = true ↔ hex <:+: content)) ∧
    ∀ h, Reaches (regularFile content) (toInt content.length) hex call h →
      h.fileSize = content.length - h.fPos := by
  constructor
  · obtain ⟨found, calls, hsettles, hfound⟩ := @scan_visible content hex hlen call
    refine ⟨found, calls, hsettles, hfound.trans ?_⟩
    by_cases hempty : content = []
    · subst hempty
      have hzero : toInt ([] : List Byte).length ≤ 0 := by decide
      apply iff_of_false (not_visible_of_nonpos hzero)
      intro hinfix
      exact hne (List.infix_nil.mp hinfix)
    · exact visible_iff_occurs hlen hcontent hhex hempty hsize
  · intro h hh
    exact (regular_head hsize hlen hh).1

theorem windowed_search_exact_letters :
    (∃ found calls, Settles (fun fuel => scan (regularFile [65, 66]) (toInt 2) [66] fuel
        (toInt 2) 0 0) (.ok (found, calls)) ∧
        (found = true ↔ [(66 : Byte)] <:+: [65, 66])) ∧
    ∀ h, Reaches (regularFile [65, 66]) (toInt 2) [66] 0 h → h.fileSize = 2 - h.fPos :=
  @windowed_search_exact [65, 66] [66] (by decide) (by decide) (by decide) (by decide)
    (by decide) 0

end regular

end ScanRounds
