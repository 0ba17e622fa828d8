import LoadableSystemCalls.TaskRegistration
import LoadableSystemCalls.TraceLog

/-! # The command lines of the tools (user_ioctl.c, newclone.c)

Which words make user_ioctl send which message, with the C library's getopt and atoi. -/
namespace CommandLine

open KernelTypes TaskRegistration CStrings TraceLog

abbrev Word := List Byte

def isSpace (c : Byte) : Bool := (9 ≤ c ∧ c ≤ 13) ∨ c = 32

def isDigit (c : Byte) : Bool := 48 ≤ c ∧ c ≤ 57

def leading (s : Word) : ℕ :=
  Nat.ofDigits 10 ((s.takeWhile isDigit).reverse.map fun c => c.toNat - 48)

def strtol (s : Word) : ℤ :=
  match s.dropWhile isSpace with
  | 45 :: s => max (-(leading s : ℤ)) (-(2 ^ 63))
  | 43 :: s => min (leading s) (2 ^ 63 - 1)
  | s => min (leading s) (2 ^ 63 - 1)

/-- strtol, cut down to an int. -/
def atoi (s : Word) : BitVec 32 := BitVec.ofInt 32 (strtol s)

/-- The test each parameter has to pass. -/
def integerParameter (w : Word) : Option (BitVec 32) :=
  if (atoi w).sle 0 then if w = ascii "0" then some (atoi w) else none else some (atoi w)

def isOption (w : Word) : Bool := w.head? = some 45 && w ≠ [45]

/-- What getopt makes of the words behind the program's name until it returns -1: the option
characters, and the words that it has moved behind them, where optind points. -/
def getopt : List Word → List Byte × List Word
  | [] => ([], [])
  | w :: ws =>
    if w = ascii "--" then ([], ws)
    else if isOption w then (w.tail ++ (getopt ws).1, (getopt ws).2)
    else ((getopt ws).1, w :: (getopt ws).2)

/-- It leaves with a message, or reads through the NULL at the end of argv. -/
inductive Stop where
  | exits
  | faults
  deriving DecidableEq, Repr

inductive Action where
  | stops (s : Stop)
  | set (msg : IoctlArg)
  | get
  deriving DecidableEq, Repr

def readOption (argc : ℕ) (flags : Bool × Bool) (opt : Byte) : Option (Bool × Bool) :=
  if opt = 115 then if argc ≠ 5 then none else some (true, flags.2)
  else if opt = 103 then if 2 < argc then none else some (flags.1, true)
  else none

def parameter (operands : List Word) (i : ℕ) : Except Stop (BitVec 32) :=
  match operands[i]? with
  | none => .error .faults
  | some w =>
    match integerParameter w with
    | none => .error .exits
    | some x => .ok x

def setMessage (operands : List Word) : Except Stop IoctlArg := do
  let pid ← parameter operands 0
  let vector ← parameter operands 1
  let moduleType ← parameter operands 2
  pure ⟨vector, pid, moduleType⟩

/-- The device is open, and the page for the report allocated. -/
def userIoctl (words : List Word) : Action :=
  match (getopt words).1.foldlM (readOption (words.length + 1)) (false, false) with
  | none => .stops .exits
  | some (setFlag, getFlag) =>
    if setFlag then
      match setMessage (getopt words).2 with
      | .error stop => .stops stop
      | .ok msg => .set msg
    else if getFlag then .get else .stops .exits

example : userIoctl [ascii "5", ascii "-s", ascii "3", ascii "2"] = .set ⟨3, 5, 2⟩ := by decide

theorem operands_length (ws : List Word) : (getopt ws).2.length ≤ ws.length := by
  induction ws with
  | nil => simp [getopt]
  | cons w ws ih =>
    rw [getopt]
    split_ifs <;> simp only [List.length_cons] <;> omega

theorem getopt_plain {ws : List Word} (h : ∀ w ∈ ws, isOption w = false) :
    getopt ws = ([], ws) := by
  induction ws with
  | nil => rfl
  | cons w ws ih =>
    have hw := h w List.mem_cons_self
    have hdashes : w ≠ ascii "--" := by
      rintro rfl
      exact absurd hw (by decide)
    rw [getopt, if_neg hdashes, hw, ih fun x hx => h x (List.mem_cons_of_mem w hx)]
    rfl

theorem plain_of_operands {ws : List Word} (h : (getopt ws).2.length = ws.length) :
    ∀ w ∈ ws, isOption w = false := by
  induction ws with
  | nil => simp
  | cons w ws ih =>
    have hle := operands_length ws
    rw [getopt] at h
    split_ifs at h with hdashes hoption
    · simp at h
    · simp only [List.length_cons] at h
      omega
    · simp only [List.length_cons, Nat.add_right_cancel_iff] at h
      simpa [hoption] using ih h

theorem getopt_one {ws : List Word} (h : (getopt ws).2.length + 1 = ws.length)
    (hopts : (getopt ws).1 ≠ []) :
    ∃ i o, i ≤ (getopt ws).2.length ∧ ws = (getopt ws).2.insertIdx i o ∧ isOption o = true ∧
      o.tail = (getopt ws).1 ∧ ∀ w ∈ (getopt ws).2, isOption w = false := by
  induction ws with
  | nil => simp [getopt] at hopts
  | cons w ws ih =>
    rw [getopt] at h hopts ⊢
    split_ifs at h hopts ⊢ with hdashes hoption
    · exact absurd rfl hopts
    · have hplain := plain_of_operands (by simpa using h)
      rw [getopt_plain hplain]
      exact ⟨0, w, Nat.zero_le _, rfl, hoption, by simp, hplain⟩
    · obtain ⟨i, o, hi, hws, ho, htail, hplain⟩ := ih (by simpa using h) hopts
      refine ⟨i + 1, o, by simpa using hi, ?_, ho, htail, ?_⟩
      · rw [List.insertIdx_succ_cons, ← hws]
      · simpa [hoption] using hplain

theorem getopt_insert {operands : List Word} (hplain : ∀ w ∈ operands, isOption w = false)
    {o : Word} (ho : isOption o = true) (hdashes : o ≠ ascii "--") {i : ℕ}
    (hi : i ≤ operands.length) : getopt (operands.insertIdx i o) = (o.tail, operands) := by
  induction operands generalizing i with
  | nil =>
    obtain rfl : i = 0 := by simpa using hi
    simp [getopt, ho, hdashes]
  | cons w ws ih =>
    have hw := hplain w List.mem_cons_self
    have hws := fun x hx => hplain x (List.mem_cons_of_mem w hx)
    cases i with
    | zero =>
      rw [List.insertIdx_zero, getopt, if_neg hdashes, if_pos ho, getopt_plain hplain,
        List.append_nil]
    | succ i =>
      have hne : w ≠ ascii "--" := by
        rintro rfl
        exact absurd hw (by decide)
      rw [List.insertIdx_succ_cons, getopt, if_neg hne, hw, ih hws (by simpa using hi)]
      rfl

theorem readOptions_five (opts : List Byte) (flags : Bool × Bool) :
    opts.foldlM (readOption 5) flags =
      if ∀ c ∈ opts, c = 115 then some (flags.1 || !opts.isEmpty, flags.2) else none := by
  induction opts generalizing flags with
  | nil => simp
  | cons c opts ih =>
    by_cases hc : c = 115
    · have hone : readOption 5 flags c = some (true, flags.2) := by simp [readOption, hc]
      rw [List.foldlM_cons, hone]
      refine (ih (true, flags.2)).trans ?_
      simp [hc]
    · have hone : readOption 5 flags c = none := by
        rw [readOption, if_neg hc]
        split <;> rfl
      rw [List.foldlM_cons, hone, if_neg fun hall => hc (hall c List.mem_cons_self)]
      rfl

theorem readOptions_other {argc : ℕ} (hargc : argc ≠ 5) {opts : List Byte} {flags r : Bool × Bool}
    (h : opts.foldlM (readOption argc) flags = some r) : r.1 = flags.1 := by
  induction opts generalizing flags with
  | nil => rw [← Option.some.inj h]
  | cons c opts ih =>
    obtain ⟨next, hnext, hrest⟩ := Option.bind_eq_some_iff.mp h
    rw [ih hrest]
    unfold readOption at hnext
    split_ifs at hnext
    obtain rfl := Option.some.inj hnext
    rfl

theorem parameter_ok_iff {operands : List Word} {i : ℕ} {x : BitVec 32} :
    parameter operands i = .ok x ↔
      ∃ w, operands[i]? = some w ∧ integerParameter w = some x := by
  unfold parameter
  cases operands[i]? with
  | none => simp
  | some w => cases hw : integerParameter w <;> simp [hw]

theorem setMessage_ok_iff {operands : List Word} {msg : IoctlArg} :
    setMessage operands = .ok msg ↔ parameter operands 0 = .ok msg.pid ∧
      parameter operands 1 = .ok msg.vector ∧ parameter operands 2 = .ok msg.moduleType := by
  rcases msg with ⟨vector, pid, moduleType⟩
  unfold setMessage
  cases parameter operands 0 with
  | error stop => simp [bind, Except.bind]
  | ok x =>
    cases parameter operands 1 with
    | error stop => simp [bind, Except.bind]
    | ok y =>
      cases parameter operands 2 with
      | error stop => simp [bind, Except.bind]
      | ok z => simp [bind, Except.bind, pure, Except.pure, and_left_comm]

/-- One word of options, `s` and nothing else, anywhere among three parameters. -/
structure SetLine (words : List Word) (a b c : Word) : Prop where
  words : ∃ i n, i ≤ 3 ∧ words = [a, b, c].insertIdx i (45 :: List.replicate (n + 1) 115)
  plain : ∀ w ∈ [a, b, c], isOption w = false

theorem setLine_of_flag {words : List Word} {getFlag : Bool}
    (h : (getopt words).1.foldlM (readOption (words.length + 1)) (false, false) =
      some (true, getFlag)) {a b c : Word} {rest : List Word}
    (hoperands : (getopt words).2 = a :: b :: c :: rest) : SetLine words a b c := by
  have hargc : words.length + 1 = 5 := by
    by_contra hne
    cases readOptions_other hne h
  rw [hargc, readOptions_five] at h
  split_ifs at h with hall
  have hopts : (getopt words).1 ≠ [] := by
    intro he
    simp [he] at h
  have hthree : (getopt words).2.length = 3 := by
    have hle := operands_length words
    have hlength : (getopt words).2.length = rest.length + 3 := by rw [hoperands]; rfl
    rcases Nat.lt_or_ge (getopt words).2.length words.length with hlt | hge
    · omega
    · have hsame : (getopt words).2.length = words.length := by omega
      have hplain := getopt_plain (plain_of_operands hsame)
      rw [hplain] at hopts
      exact absurd rfl hopts
  obtain ⟨i, o, hi, hwords, ho, htail, hplain⟩ := getopt_one (by omega) hopts
  obtain rfl : rest = [] := by
    rw [hoperands] at hthree
    simpa using hthree
  rw [hthree] at hi
  rw [hoperands] at hwords hplain
  refine ⟨⟨i, (getopt words).1.length - 1, hi, ?_⟩, hplain⟩
  have hpos := List.length_pos_iff.mpr hopts
  have hreplicate : (getopt words).1 = List.replicate ((getopt words).1.length - 1 + 1) 115 :=
    List.eq_replicate_iff.mpr ⟨by omega, hall⟩
  cases o with
  | nil => cases ho
  | cons x o =>
    simp only [isOption, List.head?_cons, Option.some.injEq, Bool.and_eq_true,
      decide_eq_true_eq] at ho
    rw [ho.1] at hwords
    rw [List.tail_cons] at htail
    rw [← hreplicate, ← htail]
    exact hwords

theorem flag_of_setLine {words : List Word} {a b c : Word} (h : SetLine words a b c) :
    (getopt words).2 = [a, b, c] ∧
      (getopt words).1.foldlM (readOption (words.length + 1)) (false, false) =
        some (true, false) := by
  obtain ⟨⟨i, n, hi, rfl⟩, hplain⟩ := h
  have hoption : isOption (45 :: List.replicate (n + 1) 115) = true := by
    simp [isOption, List.replicate_succ]
  have hdashes : (45 :: List.replicate (n + 1) 115 : Word) ≠ ascii "--" := by
    have hascii : ascii "--" = [45, 45] := rfl
    rw [hascii, List.replicate_succ]
    intro he
    cases (List.cons.inj (List.cons.inj he).2).1
  have hlength : ([a, b, c].insertIdx i (45 :: List.replicate (n + 1) 115)).length + 1 = 5 := by
    rw [List.length_insertIdx_of_le_length (by simpa using hi)]
    rfl
  rw [hlength, getopt_insert hplain hoption hdashes (by simpa using hi), readOptions_five]
  have hall : ∀ x ∈ List.replicate (n + 1) (115 : Byte), x = 115 :=
    fun x hx => List.eq_of_mem_replicate hx
  exact ⟨rfl, (if_pos hall).trans rfl⟩

theorem three_first {l : List Word} {a b c : Word} (ha : l[0]? = some a) (hb : l[1]? = some b)
    (hc : l[2]? = some c) : ∃ rest, l = a :: b :: c :: rest := by
  rcases l with _ | ⟨x, _ | ⟨y, _ | ⟨z, rest⟩⟩⟩
  · cases ha
  · cases hb
  · cases hc
  · obtain rfl := Option.some.inj ha
    obtain rfl := Option.some.inj hb
    obtain rfl := Option.some.inj hc
    exact ⟨rest, rfl⟩

/-- user_ioctl sends a registration for these command lines and no others. -/
theorem userIoctl_set_iff {words : List Word} {msg : IoctlArg} :
    userIoctl words = .set msg ↔ ∃ a b c, SetLine words a b c ∧
      integerParameter a = some msg.pid ∧ integerParameter b = some msg.vector ∧
      integerParameter c = some msg.moduleType := by
  constructor
  · intro h
    unfold userIoctl at h
    split at h
    · cases h
    · next setFlag getFlag hflags =>
      cases setFlag with
      | false => cases getFlag <;> simp at h
      | true =>
        rw [if_pos rfl] at h
        split at h
        · cases h
        · next m hmsg =>
          obtain rfl := Action.set.inj h
          simp only [setMessage_ok_iff, parameter_ok_iff] at hmsg
          obtain ⟨⟨a, ha, hpid⟩, ⟨b, hb, hvector⟩, c, hc, htype⟩ := hmsg
          obtain ⟨rest, hrest⟩ := three_first ha hb hc
          exact ⟨a, b, c, setLine_of_flag hflags hrest, hpid, hvector, htype⟩
  · rintro ⟨a, b, c, hline, hpid, hvector, htype⟩
    obtain ⟨hoperands, hflags⟩ := flag_of_setLine hline
    have hmsg : setMessage [a, b, c] = .ok msg := by
      simp only [setMessage_ok_iff, parameter_ok_iff]
      exact ⟨⟨a, rfl, hpid⟩, ⟨b, rfl, hvector⟩, c, rfl, htype⟩
    rw [userIoctl, hflags, hoperands]
    simp only [if_true, hmsg]

theorem digits_cons (n : ℕ) :
    ∃ c s, digits n = c :: s ∧ (48 ≤ c.toNat ∧ c.toNat ≤ 57) := by
  cases hs : digits n with
  | nil =>
    unfold digits at hs
    split at hs
    · cases hs
    · next hn =>
      rw [List.map_eq_nil_iff, List.reverse_eq_nil_iff, Nat.digits_eq_nil_iff_eq_zero] at hs
      exact absurd hs hn
  | cons c s => exact ⟨c, s, rfl, digits_range (hs ▸ List.mem_cons_self)⟩

theorem leading_digits (n : ℕ) : leading (digits n) = n := by
  have hall : ∀ c ∈ digits n, isDigit c = true := by
    intro c hc
    obtain ⟨hlow, hhigh⟩ := digits_range hc
    simp only [isDigit, Bool.decide_and, Bool.and_eq_true, decide_eq_true_eq, BitVec.le_def]
    exact ⟨hlow, hhigh⟩
  rw [leading, List.takeWhile_eq_self_iff.mpr hall, ofDigits_digits]

theorem strtol_digits {n : ℕ} (hn : n < 2 ^ 63) : strtol (digits n) = n := by
  have hleading := leading_digits n
  obtain ⟨c, s, hs, hlow, hhigh⟩ := digits_cons n
  rw [hs] at hleading ⊢
  have hne {d : Byte} (hd : d.toNat < 48) : c ≠ d := by
    rintro rfl
    omega
  have hspace : isSpace c = false := by
    simp only [isSpace, decide_eq_false_iff_not, BitVec.le_def]
    intro hspace
    rcases hspace with ⟨-, h13⟩ | h32
    · simp at h13
      omega
    · exact hne (by decide) h32
  rw [strtol, List.dropWhile_cons_of_neg (by simp [hspace])]
  split
  · next heq => exact absurd (List.cons.inj heq).1 (hne (by decide))
  · next heq => exact absurd (List.cons.inj heq).1 (hne (by decide))
  · rw [hleading]
    omega

theorem toInt_zero : (0 : BitVec 32).toInt = 0 := rfl

theorem integerParameter_decimal {x : BitVec 32} (hx : x.msb = false) :
    integerParameter (decimal x) = some x ∧ isOption (decimal x) = false := by
  have hlt : x.toNat < 2 ^ 31 := by
    have hmsb := BitVec.msb_eq_decide x
    rw [hx] at hmsb
    simpa using hmsb
  have hint : x.toInt = x.toNat := BitVec.toInt_eq_toNat_of_msb hx
  have hdecimal : decimal x = digits x.toNat := by
    rw [decimal, if_neg (by omega), hint, Int.natAbs_natCast]
  have hatoi : atoi (decimal x) = x := by
    rw [hdecimal, atoi, strtol_digits (by omega), ← hint, BitVec.ofInt_toInt]
  refine ⟨?_, ?_⟩
  · rw [integerParameter, hatoi]
    split
    · next hle =>
      have hzero : x = 0 := by
        rw [BitVec.sle_iff_toInt_le, hint, toInt_zero] at hle
        apply BitVec.eq_of_toNat_eq
        exact Nat.le_zero.mp (Int.ofNat_le.mp hle)
      rw [hzero]
      rfl
    · rfl
  · obtain ⟨c, s, hs, hlow, -⟩ := digits_cons x.toNat
    have hne : c ≠ 45 := by
      rintro rfl
      exact absurd hlow (by decide)
    simp only [hdecimal, hs, isOption, List.head?_cons, Option.some.injEq, hne, decide_false,
      Bool.false_and]

theorem integerParameter_nonneg {w : Word} {x : BitVec 32} (h : integerParameter w = some x) :
    x.msb = false := by
  unfold integerParameter at h
  split at h
  · split at h
    · next hw =>
      obtain rfl := Option.some.inj h
      rw [hw]
      decide
    · cases h
  · next hpos =>
    obtain rfl := Option.some.inj h
    rw [BitVec.sle_iff_toInt_le, toInt_zero] at hpos
    rw [BitVec.msb_eq_toInt, decide_eq_false (by omega)]

/-- The registrations that user_ioctl can send are those without a negative number. -/
theorem sendable_iff {msg : IoctlArg} : (∃ words, userIoctl words = .set msg) ↔
    msg.pid.msb = false ∧ msg.vector.msb = false ∧ msg.moduleType.msb = false := by
  constructor
  · rintro ⟨words, h⟩
    obtain ⟨a, b, c, -, hpid, hvector, htype⟩ := userIoctl_set_iff.mp h
    exact ⟨integerParameter_nonneg hpid, integerParameter_nonneg hvector,
      integerParameter_nonneg htype⟩
  · rintro ⟨hpid, hvector, htype⟩
    obtain ⟨hpid, hpidPlain⟩ := integerParameter_decimal hpid
    obtain ⟨hvector, hvectorPlain⟩ := integerParameter_decimal hvector
    obtain ⟨htype, htypePlain⟩ := integerParameter_decimal htype
    refine ⟨[ascii "-s", decimal msg.pid, decimal msg.vector, decimal msg.moduleType],
      userIoctl_set_iff.mpr ⟨_, _, _, ⟨⟨0, 0, by omega, rfl⟩, ?_⟩, hpid, hvector, htype⟩⟩
    intro w hw
    simp only [List.mem_cons, List.not_mem_nil, or_false] at hw
    rcases hw with rfl | rfl | rfl
    · exact hpidPlain
    · exact hvectorPlain
    · exact htypePlain

/-- The arguments of sys_clone2 that the driver reads; `module_id` is an int16_t. -/
def newclone (words : List Word) : Except Stop CloneArgs := do
  if words.length ≠ 2 then throw .exits
  let vector ← parameter words 0
  let moduleId ← parameter words 1
  pure ⟨moduleId.setWidth 16, vector⟩

theorem signExtend_setWidth {x : BitVec 32} (hx : x.msb = false) :
    (x.setWidth 16).signExtend 32 = x ↔ x.toNat < 2 ^ 15 := by
  have hmsb := BitVec.msb_eq_decide x
  rw [hx] at hmsb
  have hlt : x.toNat < 2 ^ 31 := by simpa using hmsb
  rw [← BitVec.toNat_inj, BitVec.toNat_signExtend, BitVec.msb_eq_decide]
  simp only [BitVec.toNat_setWidth, decide_eq_true_eq]
  split <;> omega

/-- With the same vector and type newclone registers its child as user_ioctl would, if the
type fits its int16_t. -/
theorem newclone_registers_iff {words : List Word} {a b c : Word} (h : SetLine words a b c)
    {msg : IoctlArg} (hset : userIoctl words = .set msg) (forkRet : BitVec 64) :
    ∃ args, newclone [b, c] = .ok args ∧
      (cloneMessage forkRet args = { msg with pid := forkRet.setWidth 32 } ↔
        msg.moduleType.toNat < 2 ^ 15) := by
  obtain ⟨hoperands, hflags⟩ := flag_of_setLine h
  rw [userIoctl, hflags, hoperands] at hset
  simp only [if_true] at hset
  split at hset
  · cases hset
  · next m hmsg =>
    obtain rfl := Action.set.inj hset
    simp only [setMessage_ok_iff, parameter_ok_iff] at hmsg
    obtain ⟨-, ⟨b', hb, hvector⟩, c', hc, htype⟩ := hmsg
    obtain rfl := Option.some.inj hb
    obtain rfl := Option.some.inj hc
    refine ⟨⟨m.moduleType.setWidth 16, m.vector⟩, ?_, ?_⟩
    · have hfirst : parameter [b, c] 0 = .ok m.vector := parameter_ok_iff.mpr ⟨b, rfl, hvector⟩
      have hsecond : parameter [b, c] 1 = .ok m.moduleType := parameter_ok_iff.mpr ⟨c, rfl, htype⟩
      simp [newclone, hfirst, hsecond, bind, Except.bind, pure, Except.pure]
    · rw [← signExtend_setWidth (integerParameter_nonneg htype)]
      simp [cloneMessage]

def setWords : List Word := [ascii "-s", ascii "5", ascii "3", ascii "2"]

theorem newclone_registers_iff_setWords :
    ∃ args, newclone [ascii "3", ascii "2"] = .ok args ∧
      (cloneMessage 9 args = ⟨3, (9 : BitVec 64).setWidth 32, 2⟩ ↔
        (2 : BitVec 32).toNat < 2 ^ 15) := by
  have hline : SetLine setWords (ascii "5") (ascii "3") (ascii "2") :=
    ⟨⟨0, 0, by omega, rfl⟩, by decide⟩
  have hset : userIoctl setWords = .set ⟨3, 5, 2⟩ := by decide
  exact newclone_registers_iff hline hset 9

end CommandLine
