import LoadableSystemCalls.LinkedChain
import LoadableSystemCalls.TransitionRuns

/-! # A chain that is walked while it grows

Walks and one appender at a time, none of them under a lock, each running its statements
between those of the others. An appended cell is filled before it is linked, so every run
comes to what its walks and appends come to one after the other. -/
namespace ConcurrentChain

open LinkedChain TransitionRuns

variable {T Q κ α : Type*}

/-- Comparing a pointer with NULL touches nothing shared, so it belongs to the step that
read it: a walk is about to test a cell or to leave it. -/
inductive Walk (Q κ : Type*) where
  | idle
  | look (q : Q) (a : κ)
  | leave (q : Q) (a : κ)
  deriving DecidableEq, Repr

/-- `curr` is the head as read before the allocation, then the cell that is reached. -/
inductive Append (κ α : Type*) where
  | idle
  | begun (x : α) (curr : Option κ)
  | allocated (x : α) (curr : Option κ) (a : κ)
  | filled (x : α) (curr : Option κ) (a : κ)
  | closed (x : α) (curr : Option κ) (a : κ)
  | seeking (x : α) (a : κ) (prev curr : Option κ)
  deriving DecidableEq, Repr

inductive Done (T Q κ α : Type*) where
  | added (a : κ) (x : α)
  | looked (t : T) (q : Q) (r : Option α)
  deriving DecidableEq, Repr

structure Config (T Q κ α : Type*) where
  cells : Store κ α
  head : Option κ
  append : Append κ α
  walk : T → Walk Q κ
  done : List (Done T Q κ α)

inductive Event (T Q κ α : Type*) where
  | start (t : T) (q : Q)
  | walk (t : T)
  | add (x : α)
  | malloc (a : κ) (junk : Cell κ α)
  | append
  deriving DecidableEq, Repr

def begin (st : Store κ α) (head : Option κ) : Config T Q κ α :=
  ⟨st, head, .idle, fun _ => .idle, []⟩

variable [DecidableEq T]

def Config.moved (c : Config T Q κ α) (t : T) (w : Walk Q κ) : Config T Q κ α :=
  { c with walk := Function.update c.walk t w }

theorem moved_self (c : Config T Q κ α) (t : T) (w : Walk Q κ) : (c.moved t w).walk t = w :=
  Function.update_self ..

theorem moved_of_ne (c : Config T Q κ α) {t u : T} (w : Walk Q κ) (hu : u ≠ t) :
    (c.moved t w).walk u = c.walk u :=
  Function.update_of_ne hu ..

def Config.ended (c : Config T Q κ α) (t : T) (q : Q) (r : Option α) : Config T Q κ α :=
  { c.moved t .idle with done := c.done ++ [.looked t q r] }

def Config.arrive (c : Config T Q κ α) (t : T) (q : Q) : Option κ → Config T Q κ α
  | none => c.ended t q none
  | some a => c.moved t (.look q a)

def Config.linked (c : Config T Q κ α) (a : κ) (x : α) : Config T Q κ α :=
  { c with append := .idle, done := c.done ++ [.added a x] }

variable [DecidableEq κ] (test : Q → α → Option Bool)

def walkNext (c : Config T Q κ α) (t : T) : Option (Config T Q κ α) :=
  match c.walk t with
  | .idle => none
  | .look q a =>
    (c.cells.lookup a).bind fun cell =>
      (test q cell.value).map fun found =>
        if found then c.ended t q (some cell.value) else c.moved t (.leave q a)
  | .leave q a => (c.cells.lookup a).map fun cell => c.arrive t q cell.next

def appendNext (c : Config T Q κ α) : Option (Config T Q κ α) :=
  match c.append with
  | .idle => none
  | .begun _ _ => none
  | .allocated x curr a =>
    (c.cells.lookup a).map fun cell =>
      { c with cells := c.cells.insert a ⟨x, cell.next⟩, append := .filled x curr a }
  | .filled x curr a =>
    (c.cells.lookup a).map fun cell =>
      { c with cells := c.cells.insert a ⟨cell.value, none⟩, append := .closed x curr a }
  | .closed x curr a =>
    match c.head with
    | none => some { c.linked a x with head := some a }
    | some _ => some { c with append := .seeking x a none curr }
  | .seeking x a _ (some b) =>
    (c.cells.lookup b).map fun cell => { c with append := .seeking x a (some b) cell.next }
  | .seeking x a prev none =>
    prev.bind fun b =>
      (setNext c.cells b (some a)).map fun cells => { c.linked a x with cells := cells }

def next (c : Config T Q κ α) : Event T Q κ α → Option (Config T Q κ α)
  | .start t q =>
    match c.walk t with
    | .idle => some (c.arrive t q c.head)
    | _ => none
  | .walk t => walkNext test c t
  | .add x =>
    match c.append with
    | .idle => some { c with append := .begun x c.head }
    | _ => none
  | .malloc a junk =>
    match c.append with
    | .begun x curr =>
      if c.cells.lookup a = none then
        some { c with cells := c.cells.insert a junk, append := .allocated x curr a }
      else none
    | _ => none
  | .append => appendNext c

def Step (c : Config T Q κ α) (e : Event T Q κ α) (c' : Config T Q κ α) : Prop :=
  next test c e = some c'

def appendWhole (a : κ) (x : α) (st : Store κ α) (head : Option κ) :
    Option (Store κ α × Option κ) :=
  let cells := st.insert a ⟨x, none⟩
  match head with
  | none => some (cells, some a)
  | some h =>
    match lastCell cells cells.keys.length none (some h) with
    | some (some b) => (setNext cells b (some a)).map fun cells => (cells, some h)
    | _ => none

def walkWhole (q : Q) (st : Store κ α) (head : Option κ) : Option (Option α) :=
  (seek st (test q) st.keys.length none head).map (·.map fun r => r.2.2.value)

/-- A walk counts if it found what the whole walk finds. -/
def whole [DecidableEq α] (s : Store κ α × Option κ) :
    Done T Q κ α → Option (Store κ α × Option κ)
  | .added a x => appendWhole a x s.1 s.2
  | .looked _ q r => if walkWhole test q s.1 s.2 = some r then some s else none

def added (ds : List (Done T Q κ α)) : List α :=
  ds.filterMap fun d =>
    match d with
    | .added _ x => some x
    | .looked _ _ _ => none

section cells
variable {st : Store κ α} {head p : Option κ} {l pre post : List (κ × α)} {a b : κ} {x y : α}

theorem segment_at (h : Segment st p (pre ++ (a, x) :: post) none) :
    ∃ n, st.lookup a = some ⟨x, n⟩ ∧ Segment st n post none := by
  obtain ⟨q, -, rfl, n, hn, hrest⟩ := segment_append.mp h
  exact ⟨n, hn, hrest⟩

theorem lookup_unlinked (ha : st.lookup a = none) (cell : Cell κ α) {n : Option κ}
    (hb : st.lookup b = some ⟨y, n⟩) : (st.insert a cell).lookup b = some ⟨y, n⟩ := by
  have hne : b ≠ a := by
    rintro rfl
    rw [ha] at hb
    cases hb
  rw [AList.lookup_insert_ne hne, hb]

theorem notMem_of_lookup_none (h : Segment st p l none) (ha : st.lookup a = none) :
    a ∉ l.map Prod.fst :=
  fun hmem => AList.lookup_eq_none.mp ha (AList.mem_keys.mpr (h.mem_keys a hmem))

theorem appendWhole_last (h : Segment st head (pre ++ [(b, y)]) none)
    (hd : ((pre ++ [(b, y)]).map Prod.fst).Nodup) (ha : st.lookup a = none) :
    appendWhole a x st head = some ((st.insert a ⟨x, none⟩).insert b ⟨y, some a⟩, head) := by
  have hins := segment_insert_of_notMem h (notMem_of_lookup_none h ha) ⟨x, none⟩
  obtain ⟨n, hb, -⟩ := segment_at hins
  obtain ⟨first, hfirst⟩ : ∃ first, head = some first := by
    cases pre with
    | nil => exact ⟨b, h.1⟩
    | cons c pre => exact ⟨c.1, h.1⟩
  have hlast := lastCell_of_segment hins (hins.length_le hd) none
  rw [List.getLast?_concat] at hlast
  subst hfirst
  simp only [appendWhole, hlast, Option.map_some, Option.some_or, setNext, hb]

theorem chain_append (h : Segment st head (pre ++ [(b, y)]) none)
    (hd : ((pre ++ [(b, y)]).map Prod.fst).Nodup) (ha : st.lookup a = none) :
    Segment ((st.insert a ⟨x, none⟩).insert b ⟨y, some a⟩) head (pre ++ [(b, y)] ++ [(a, x)]) none ∧
      ((pre ++ [(b, y)] ++ [(a, x)]).map Prod.fst).Nodup := by
  have hnot := notMem_of_lookup_none h ha
  refine ⟨h.append_cell hd hnot, ?_⟩
  rw [List.map_append]
  exact hd.append (List.nodup_singleton a) (by simpa using hnot)

end cells

section invariant
variable (good : α → Prop) (l : List (κ × α))

def WalkAt : Walk Q κ → Prop
  | .idle => True
  | .look q a => ∃ pre x post, l = pre ++ (a, x) :: post ∧
      ∀ y ∈ pre.map Prod.snd, test q y = some false
  | .leave q a => ∃ pre x post, l = pre ++ (a, x) :: post ∧
      ∀ y ∈ (pre ++ [(a, x)]).map Prod.snd, test q y = some false

def AppendAt (cells st : Store κ α) (head : Option κ) : Append κ α → Prop
  | .idle => cells = st
  | .begun x curr => cells = st ∧ curr = head ∧ good x
  | .allocated x curr a => st.lookup a = none ∧ curr = head ∧ good x ∧
      ∃ cell, cells = st.insert a cell
  | .filled x curr a => st.lookup a = none ∧ curr = head ∧ good x ∧
      ∃ n, cells = st.insert a ⟨x, n⟩
  | .closed x curr a => st.lookup a = none ∧ curr = head ∧ good x ∧ cells = st.insert a ⟨x, none⟩
  | .seeking x a prev curr => st.lookup a = none ∧ good x ∧ cells = st.insert a ⟨x, none⟩ ∧
      l ≠ [] ∧ ∃ pre post, l = pre ++ post ∧ prev = pre.getLast?.map Prod.fst ∧
        Segment st curr post none

variable [DecidableEq α]

/-- `st` and the head are what the completed walks and appends leave, one after the other. -/
structure Linear (start : Store κ α × Option κ) (xs : List α) (c : Config T Q κ α)
    (st : Store κ α) (l : List (κ × α)) : Prop where
  chain : Segment st c.head l none
  nodup : (l.map Prod.fst).Nodup
  values : ∀ x ∈ l.map Prod.snd, good x
  walk : ∀ t, WalkAt test l (c.walk t)
  append : AppendAt good l c.cells st c.head c.append
  done : replay (whole test) start c.done = some (st, c.head)
  order : l.map Prod.snd = xs ++ added c.done

end invariant

section steps
variable {test} {good : α → Prop} {l : List (κ × α)} {st : Store κ α} {c : Config T Q κ α}

theorem AppendAt.lookup {cells : Store κ α} {head : Option κ} {w : Append κ α}
    (h : AppendAt good l cells st head w) {b : κ} {y : α} {n : Option κ}
    (hb : st.lookup b = some ⟨y, n⟩) : cells.lookup b = some ⟨y, n⟩ := by
  cases w with
  | idle =>
    obtain rfl : cells = st := h
    exact hb
  | begun =>
    obtain ⟨rfl, -⟩ := h
    exact hb
  | allocated =>
    obtain ⟨ha, -, -, cell, rfl⟩ := h
    exact lookup_unlinked ha cell hb
  | filled =>
    obtain ⟨ha, -, -, m, rfl⟩ := h
    exact lookup_unlinked ha _ hb
  | closed =>
    obtain ⟨ha, -, -, rfl⟩ := h
    exact lookup_unlinked ha _ hb
  | seeking =>
    obtain ⟨ha, -, rfl, -⟩ := h
    exact lookup_unlinked ha _ hb

omit [DecidableEq κ] in
theorem WalkAt.append {w : Walk Q κ} (h : WalkAt test l w) (more : List (κ × α)) :
    WalkAt test (l ++ more) w := by
  cases w with
  | idle => trivial
  | look q a =>
    obtain ⟨pre, x, post, rfl, hpre⟩ := h
    exact ⟨pre, x, post ++ more, by simp, hpre⟩
  | leave q a =>
    obtain ⟨pre, x, post, rfl, hpre⟩ := h
    exact ⟨pre, x, post ++ more, by simp, hpre⟩

variable [DecidableEq α] {start : Store κ α × Option κ} {xs : List α}

theorem Linear.moved (h : Linear test good start xs c st l) {w : Walk Q κ} (hw : WalkAt test l w)
    (t : T) : Linear test good start xs (c.moved t w) st l := by
  refine ⟨h.chain, h.nodup, h.values, fun u => ?_, h.append, h.done, h.order⟩
  by_cases hu : u = t
  · subst hu
    rw [moved_self]
    exact hw
  · rw [moved_of_ne c w hu]
    exact h.walk u

theorem Linear.ended (h : Linear test good start xs c st l) {q : Q} {r : Option α}
    (hr : walkWhole test q st c.head = some r) (t : T) :
    Linear test good start xs (c.ended t q r) st l := by
  obtain ⟨hchain, hnodup, hvalues, hwalk, happend, -⟩ := h.moved (w := .idle) trivial t
  refine ⟨hchain, hnodup, hvalues, hwalk, happend, ?_, ?_⟩
  · rw [Config.ended, replay_append, h.done, Option.bind_some, replay, whole, if_pos hr]
    rfl
  · rw [h.order]
    simp [Config.ended, added]

theorem Linear.arrive (h : Linear test good start xs c st l) {q : Q} {p : Option κ}
    {pre post : List (κ × α)} (hl : l = pre ++ post) (hp : Segment st p post none)
    (hpre : ∀ y ∈ pre.map Prod.snd, test q y = some false) (t : T) :
    Linear test good start xs (c.arrive t q p) st l := by
  cases post with
  | nil =>
    obtain rfl : p = none := hp
    obtain rfl : l = pre := by simpa using hl
    refine h.ended ?_ t
    rw [walkWhole, seek_of_segment h.chain (h.chain.length_le h.nodup) hpre]
    rfl
  | cons cell post =>
    obtain ⟨a, x⟩ := cell
    obtain ⟨rfl, -⟩ := hp
    have hlook : WalkAt test l (.look q a) := ⟨pre, x, post, hl, hpre⟩
    exact h.moved hlook t

theorem Linear.found (h : Linear test good start xs c st l) {q : Q} {a : κ} {x : α}
    {pre post : List (κ × α)} (hl : l = pre ++ (a, x) :: post)
    (hpre : ∀ y ∈ pre.map Prod.snd, test q y = some false) (hx : test q x = some true) (t : T) :
    Linear test good start xs (c.ended t q (some x)) st l := by
  subst hl
  refine h.ended ?_ t
  obtain ⟨p, hp, rfl, n, ha, -⟩ := segment_append.mp h.chain
  rw [walkWhole, seek_of_split hp ha (h.chain.length_le h.nodup) none hpre hx]
  rfl

/-- A walk under way never faults, and its step keeps the order. -/
theorem walk_step (hgood : ∀ q x, good x → (test q x).isSome)
    (h : Linear test good start xs c st l) {t : T} (ht : c.walk t ≠ .idle) :
    ∃ c', walkNext test c t = some c' ∧ Linear test good start xs c' st l := by
  have hw := h.walk t
  cases hwalk : c.walk t with
  | idle => exact absurd hwalk ht
  | look q a =>
    rw [hwalk] at hw
    obtain ⟨pre, x, post, hl, hpre⟩ := hw
    have hchain := h.chain
    rw [hl] at hchain
    obtain ⟨n, ha, -⟩ := segment_at hchain
    have hx : x ∈ l.map Prod.snd := by simp [hl]
    obtain ⟨b, hb⟩ := Option.isSome_iff_exists.mp (hgood q x (h.values x hx))
    simp only [walkNext, hwalk, h.append.lookup ha, Option.bind_some, hb, Option.map_some]
    cases b with
    | true => exact ⟨_, rfl, h.found hl hpre hb t⟩
    | false =>
      have hleave : WalkAt test l (.leave q a) := by
        refine ⟨pre, x, post, hl, fun y hy => ?_⟩
        rw [List.map_append] at hy
        rcases List.mem_append.mp hy with hy | hy
        · exact hpre y hy
        · obtain rfl : y = x := by simpa using hy
          exact hb
      exact ⟨_, rfl, h.moved hleave t⟩
  | leave q a =>
    rw [hwalk] at hw
    obtain ⟨pre, x, post, hl, hpre⟩ := hw
    have hchain := h.chain
    rw [hl] at hchain
    obtain ⟨n, ha, hpost⟩ := segment_at hchain
    simp only [walkNext, hwalk, h.append.lookup ha, Option.map_some]
    exact ⟨_, rfl, h.arrive (by simp [hl]) hpost hpre t⟩

omit [DecidableEq T] in
theorem Linear.toward (h : Linear test good start xs c st l) {cells : Store κ α} {w : Append κ α}
    (hw : AppendAt good l cells st c.head w) :
    Linear test good start xs { c with cells := cells, append := w } st l :=
  ⟨h.chain, h.nodup, h.values, h.walk, hw, h.done, h.order⟩

omit [DecidableEq T] in
theorem Linear.link (h : Linear test good start xs c st l) {a : κ} {x : α} {cells : Store κ α}
    {head : Option κ} (hx : good x) (hwhole : appendWhole a x st c.head = some (cells, head))
    (hchain : Segment cells head (l ++ [(a, x)]) none)
    (hnodup : ((l ++ [(a, x)]).map Prod.fst).Nodup) :
    Linear test good start xs { c.linked a x with cells := cells, head := head } cells
      (l ++ [(a, x)]) := by
  refine ⟨hchain, hnodup, fun y hy => ?_, fun t => (h.walk t).append _, rfl, ?_, ?_⟩
  · rw [List.map_append] at hy
    rcases List.mem_append.mp hy with hy | hy
    · exact h.values y hy
    · obtain rfl : y = x := by simpa using hy
      exact hx
  · simp only [Config.linked]
    rw [replay_append, h.done, Option.bind_some, replay, whole, hwhole]
    rfl
  · rw [List.map_append, h.order]
    simp [Config.linked, added]

def Append.placed : Append κ α → Bool
  | .idle => false
  | .begun _ _ => false
  | _ => true

omit [DecidableEq T] in
/-- The appender never faults once it has its cell. -/
theorem append_step (h : Linear test good start xs c st l) (hplaced : c.append.placed = true) :
    ∃ c' st' l', appendNext c = some c' ∧ Linear test good start xs c' st' l' := by
  have happ := h.append
  cases hc : c.append with
  | idle => simp [hc, Append.placed] at hplaced
  | begun => simp [hc, Append.placed] at hplaced
  | allocated x curr a =>
    rw [hc] at happ
    obtain ⟨ha, hcurr, hx, cell, hcells⟩ := happ
    simp only [appendNext, hc, hcells, AList.lookup_insert, Option.map_some, AList.insert_insert]
    have hfilled : AppendAt good l (st.insert a ⟨x, cell.next⟩) st c.head (.filled x curr a) :=
      ⟨ha, hcurr, hx, _, rfl⟩
    exact ⟨_, st, l, rfl, h.toward hfilled⟩
  | filled x curr a =>
    rw [hc] at happ
    obtain ⟨ha, hcurr, hx, n, hcells⟩ := happ
    simp only [appendNext, hc, hcells, AList.lookup_insert, Option.map_some, AList.insert_insert]
    have hclosed : AppendAt good l (st.insert a ⟨x, none⟩) st c.head (.closed x curr a) :=
      ⟨ha, hcurr, hx, rfl⟩
    exact ⟨_, st, l, rfl, h.toward hclosed⟩
  | closed x curr a =>
    rw [hc] at happ
    obtain ⟨ha, hcurr, hx, hcells⟩ := happ
    cases hhead : c.head with
    | none =>
      -- The chain was empty, and the new cell is all of it.
      have hempty : l = [] := by
        have hchain := h.chain
        rw [hhead] at hchain
        cases l with
        | nil => rfl
        | cons => cases hchain.1
      subst hempty
      simp only [appendNext, hc, hhead]
      refine ⟨_, st.insert a ⟨x, none⟩, [(a, x)], rfl, ?_⟩
      have hlink := h.link hx (by rw [hhead]; rfl) ⟨rfl, none, AList.lookup_insert _, rfl⟩
        (List.nodup_singleton a)
      rw [← hcells] at hlink ⊢
      exact hlink
    | some first =>
      have hseeking : AppendAt good l c.cells st c.head (.seeking x a none curr) := by
        refine ⟨ha, hx, hcells, ?_, [], l, rfl, rfl, hcurr ▸ h.chain⟩
        rintro rfl
        have hchain : c.head = none := h.chain
        rw [hhead] at hchain
        cases hchain
      refine ⟨_, st, l, ?_, h.toward hseeking⟩
      simp only [appendNext, hc, hhead]
  | seeking x a prev curr =>
    rw [hc] at happ
    have hlookup := h.append
    obtain ⟨ha, hx, hcells, hne, pre, post, hl, hprev, hpost⟩ := happ
    cases post with
    | nil =>
      obtain rfl : curr = none := hpost
      obtain rfl : l = pre := by simpa using hl
      obtain ⟨pre, ⟨b, y⟩, rfl⟩ := (List.eq_nil_or_concat l).resolve_left hne
      rw [List.concat_eq_append] at *
      obtain ⟨n, hb, -⟩ := segment_at h.chain
      have hlast : prev = some b := by rw [hprev, List.getLast?_concat, Option.map_some]
      obtain ⟨hchain, hnodup⟩ := chain_append (x := x) h.chain h.nodup ha
      have hlink := h.link hx (appendWhole_last h.chain h.nodup ha) hchain hnodup
      refine ⟨_, _, _, ?_, hlink⟩
      simp only [appendNext, hc, hlast, Option.bind_some, setNext, hcells,
        lookup_unlinked ha ⟨x, none⟩ hb, Option.map_some]
      rfl
    | cons cell post =>
      obtain ⟨b, y⟩ := cell
      obtain ⟨rfl, n, hb, hrest⟩ := hpost
      simp only [appendNext, hc, hlookup.lookup hb, Option.map_some]
      have hseeking : AppendAt good l c.cells st c.head (.seeking x a (some b) n) := by
        refine ⟨ha, hx, hcells, hne, pre ++ [(b, y)], post, by simp [hl], ?_, hrest⟩
        rw [List.getLast?_concat, Option.map_some]
      exact ⟨_, st, l, rfl, h.toward hseeking⟩

def Adds (good : α → Prop) (_ : Config T Q κ α) : Event T Q κ α → Prop
  | .add x => good x
  | _ => True

instance (good : α → Prop) [DecidablePred good] (c : Config T Q κ α) (e : Event T Q κ α) :
    Decidable (Adds good c e) :=
  match e with
  | .add x => inferInstanceAs (Decidable (good x))
  | .start _ _ | .walk _ | .malloc _ _ | .append => inferInstanceAs (Decidable True)

theorem step_linear (hgood : ∀ q x, good x → (test q x).isSome)
    (h : Linear test good start xs c st l) {e : Event T Q κ α} {c' : Config T Q κ α}
    (hs : Guarded (Adds good) (Step test) c e c') :
    ∃ st' l', Linear test good start xs c' st' l' := by
  obtain ⟨hadds, hs⟩ := hs
  cases e with
  | start t q =>
    cases hw : c.walk t with
    | idle =>
      simp only [Step, next, hw, Option.some.injEq] at hs
      subst hs
      have hl : l = [] ++ l := rfl
      exact ⟨st, l, h.arrive hl h.chain (by simp) t⟩
    | look => simp [Step, next, hw] at hs
    | leave => simp [Step, next, hw] at hs
  | walk t =>
    have hbusy : c.walk t ≠ .idle := by
      intro hw
      simp [Step, next, walkNext, hw] at hs
    obtain ⟨c₁, hc₁, hlinear⟩ := walk_step hgood h hbusy
    obtain rfl := Option.some.inj (hc₁.symm.trans hs)
    exact ⟨st, l, hlinear⟩
  | add x =>
    have happ := h.append
    cases hc : c.append with
    | idle =>
      rw [hc] at happ
      simp only [Step, next, hc, Option.some.injEq] at hs
      subst hs
      have hbegun : AppendAt good l c.cells st c.head (.begun x c.head) := ⟨happ, rfl, hadds⟩
      exact ⟨st, l, h.toward hbegun⟩
    | _ => simp [Step, next, hc] at hs
  | malloc a junk =>
    have happ := h.append
    cases hc : c.append with
    | begun x curr =>
      rw [hc] at happ
      obtain ⟨hcells, hcurr, hx⟩ := happ
      simp only [Step, next, hc, hcells] at hs
      split at hs
      · next hfresh =>
        obtain rfl := Option.some.inj hs
        have hallocated : AppendAt good l (st.insert a junk) st c.head (.allocated x curr a) :=
          ⟨hfresh, hcurr, hx, junk, rfl⟩
        exact ⟨st, l, h.toward hallocated⟩
      · cases hs
    | _ => simp [Step, next, hc] at hs
  | append =>
    have hplaced : c.append.placed = true := by
      cases hc : c.append with
      | idle => simp [Step, next, appendNext, hc] at hs
      | begun => simp [Step, next, appendNext, hc] at hs
      | _ => rfl
    obtain ⟨c₁, st', l', hc₁, hlinear⟩ := append_step h hplaced
    obtain rfl := Option.some.inj (hc₁.symm.trans hs)
    exact ⟨st', l', hlinear⟩

/-- Runs from a chain come to their completed walks and appends one after the other. -/
theorem run_linear (hgood : ∀ q x, good x → (test q x).isSome) {st₀ : Store κ α}
    {head : Option κ} {l₀ : List (κ × α)} (hchain : Segment st₀ head l₀ none)
    (hnodup : (l₀.map Prod.fst).Nodup) (hvalues : ∀ x ∈ l₀.map Prod.snd, good x)
    {es : List (Event T Q κ α)}
    (hr : Run (Guarded (Adds good) (Step test)) (begin st₀ head) es c) :
    ∃ st l, Linear test good (st₀, head) (l₀.map Prod.snd) c st l := by
  have hbegin : Linear test good (st₀, head) (l₀.map Prod.snd)
      (begin st₀ head : Config T Q κ α) st₀ l₀ :=
    ⟨hchain, hnodup, hvalues, fun _ => trivial, rfl, rfl, by simp [begin, added]⟩
  refine hr.invariant
    (P := fun c => ∃ st l, Linear test good (st₀, head) (l₀.map Prod.snd) c st l) ?_ ⟨_, _, hbegin⟩
  intro c e c' hc hs
  obtain ⟨st, l, hlinear⟩ := hc
  exact step_linear hgood hlinear hs

theorem Linear.goes_on (hgood : ∀ q x, good x → (test q x).isSome)
    (h : Linear test good start xs c st l) :
    (∀ t, c.walk t ≠ .idle → ∃ c', Step test c (.walk t) c') ∧
      (c.append.placed = true → ∃ c', Step test c .append c') := by
  constructor
  · intro t ht
    obtain ⟨c', hc', -⟩ := walk_step hgood h ht
    exact ⟨c', hc'⟩
  · intro hplaced
    obtain ⟨c', -, -, hc', -⟩ := append_step h hplaced
    exact ⟨c', hc'⟩

end steps

end ConcurrentChain
