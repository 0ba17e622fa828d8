import Mathlib.Data.List.Nodup
import Mathlib.Logic.Function.Basic
import LoadableSystemCalls.TransitionRuns

/-! # Bodies of statements over a shared state

A body runs one statement at a time, and other threads may run between two of its
statements. Threads that take one lock around their bodies run them one after the other;
threads that each stay on a part of their own need no lock for that. -/
namespace StatementBodies

open TransitionRuns

/-- A statement changes the shared state or faults, and its value decides what follows. -/
inductive Body (σ ρ : Type) : Type 1 where
  | done (r : ρ)
  | step {α : Type} (act : σ → Option (σ × α)) (rest : α → Body σ ρ)

namespace Body
variable {σ α β ρ : Type}

def bind : Body σ α → (α → Body σ β) → Body σ β
  | .done a, k => k a
  | .step act rest, k => .step act fun x => (rest x).bind k

instance : Monad (Body σ) where
  pure := .done
  bind := bind

def read (f : σ → Option α) : Body σ α := .step (fun s => (f s).map fun x => (s, x)) .done

def write (f : σ → Option σ) : Body σ Unit := .step (fun s => (f s).map fun s' => (s', ())) .done

def run : Body σ ρ → σ → Option (σ × ρ)
  | .done r, s => some (s, r)
  | .step act rest, s => (act s).bind fun p => (rest p.2).run p.1

def isDone : Body σ ρ → Bool
  | .done _ => true
  | .step _ _ => false

theorem done_of_isDone {b : Body σ ρ} (h : b.isDone = true) : ∃ r, b = .done r := by
  cases b with
  | done r => exact ⟨r, rfl⟩
  | step act rest => cases h

@[simp] theorem run_pure (a : α) (s : σ) : (pure a : Body σ α).run s = some (s, a) := rfl

@[simp] theorem run_bind (b : Body σ α) (k : α → Body σ β) (s : σ) :
    (b >>= k).run s = (b.run s).bind fun p => (k p.2).run p.1 := by
  change (b.bind k).run s = _
  induction b generalizing s with
  | done a => rfl
  | step act rest ih =>
    rw [bind, run, run]
    cases act s with
    | none => rfl
    | some p => exact ih p.2 p.1

@[simp] theorem run_read (f : σ → Option α) (s : σ) :
    (read f).run s = (f s).map fun x => (s, x) := by
  rw [read, run]
  cases f s <;> rfl

@[simp] theorem run_write (f : σ → Option σ) (s : σ) :
    (write f).run s = (f s).map fun s' => (s', ()) := by
  rw [write, run]
  cases f s <;> rfl

theorem bind_done (b : Body σ ρ) : b.bind .done = b := by
  induction b with
  | done r => rfl
  | step act rest ih => exact congrArg (Body.step act) (funext ih)

theorem bind_bind (b : Body σ α) (k : α → Body σ β) (l : β → Body σ ρ) :
    (b.bind k).bind l = b.bind fun a => (k a).bind l := by
  induction b with
  | done a => rfl
  | step act rest ih => exact congrArg (Body.step act) (funext ih)

instance : LawfulMonad (Body σ) := .mk' _
  (fun b => bind_done b)
  (fun _ _ => rfl)
  (fun b k l => bind_bind b k l)

theorem run_foldlM_read {γ : Type} (f : σ → β → γ → Option β) (xs : List γ) (b : β) (s : σ) :
    (xs.foldlM (fun b x => read fun s => f s b x) b : Body σ β).run s =
      (xs.foldlM (f s) b).map fun b => (s, b) := by
  induction xs generalizing b with
  | nil => rfl
  | cons x xs ih =>
    rw [List.foldlM_cons, List.foldlM_cons, run_bind, run_read]
    cases f s b x with
    | none => rfl
    | some b' => exact ih b'

end Body

section locked
variable {T σ ρ : Type} [DecidableEq T]

inductive Phase (σ ρ : Type) : Type 1 where
  | waiting
  | inside (rest : Body σ ρ)
  | left (r : ρ)

/-- The state, who has the lock, and where each thread is. -/
@[ext] structure Config (T σ ρ : Type) : Type 1 where
  shared : σ
  owner : Option T
  phase : T → Phase σ ρ

def begin (s : σ) : Config T σ ρ := ⟨s, none, fun _ => .waiting⟩

inductive Event (T : Type) where
  | lock (t : T)
  | act (t : T)
  | unlock (t : T)
  deriving DecidableEq, Repr

/-- Only taking the lock looks at its owner. -/
def next (body : T → Body σ ρ) (c : Config T σ ρ) : Event T → Option (Config T σ ρ)
  | .lock t =>
    match c.owner, c.phase t with
    | none, .waiting =>
      some { c with owner := some t, phase := Function.update c.phase t (.inside (body t)) }
    | _, _ => none
  | .act t =>
    match c.phase t with
    | .inside (.step act rest) => (act c.shared).map fun p =>
      { c with shared := p.1, phase := Function.update c.phase t (.inside (rest p.2)) }
    | _ => none
  | .unlock t =>
    match c.phase t with
    | .inside (.done r) =>
      some { c with owner := none, phase := Function.update c.phase t (.left r) }
    | _ => none

def Step (body : T → Body σ ρ) (c : Config T σ ρ) (e : Event T) (c' : Config T σ ρ) : Prop :=
  next body c e = some c'

/-- The threads in the order in which they took the lock. -/
def acquired : List (Event T) → List T
  | [] => []
  | .lock t :: es => t :: acquired es
  | _ :: es => acquired es

def serial (body : T → Body σ ρ) : Config T σ ρ → List T → Option (Config T σ ρ)
  | c, [] => some c
  | c, t :: ts => ((body t).run c.shared).bind fun p =>
    serial body { c with shared := p.1, phase := Function.update c.phase t (.left p.2) } ts

variable {body : T → Body σ ρ}

omit [DecidableEq T] in
theorem acquired_append (es es' : List (Event T)) :
    acquired (es ++ es') = acquired es ++ acquired es' := by
  induction es with
  | nil => rfl
  | cons e es ih => cases e <;> simp [acquired, ih]

theorem serial_append (c : Config T σ ρ) (ts us : List T) :
    serial body c (ts ++ us) = (serial body c ts).bind fun c => serial body c us := by
  induction ts generalizing c with
  | nil => rfl
  | cons t ts ih =>
    rw [List.cons_append, serial, serial]
    cases (body t).run c.shared with
    | none => rfl
    | some p => exact ih _

/-- What runs so far come to: whole bodies, one after the other, and the body of the owner
begun; what is left of it ends as the whole of it would have. -/
def Serialised (body : T → Body σ ρ) (c₀ : Config T σ ρ) (ts : List T) (c : Config T σ ρ) : Prop :=
  match c.owner with
  | none => serial body c₀ ts = some c
  | some t => ∃ us d rest, ts = us ++ [t] ∧ serial body c₀ us = some d ∧ d.owner = none ∧
    d.phase t = .waiting ∧ c.phase = Function.update d.phase t (.inside rest) ∧
    rest.run c.shared = (body t).run d.shared

theorem serial_outside {c d : Config T σ ρ} {ts : List T} (h : serial body c ts = some d)
    (hc : ∀ t b, c.phase t ≠ .inside b) : ∀ t b, d.phase t ≠ .inside b := by
  induction ts generalizing c with
  | nil => rwa [← Option.some.inj h]
  | cons t ts ih =>
    obtain ⟨p, -, hp⟩ := Option.bind_eq_some_iff.mp h
    refine ih hp fun u b => ?_
    by_cases hu : u = t
    · subst hu
      simp
    · simpa [hu] using hc u b

theorem Serialised.inside {c₀ c : Config T σ ρ} {ts : List T} (h : Serialised body c₀ ts c)
    (hc₀ : ∀ t b, c₀.phase t ≠ .inside b) {t : T} {b : Body σ ρ} (ht : c.phase t = .inside b) :
    c.owner = some t := by
  unfold Serialised at h
  cases ho : c.owner with
  | none =>
    rw [ho] at h
    exact absurd ht (serial_outside h hc₀ t b)
  | some u =>
    rw [ho] at h
    obtain ⟨us, d, rest, -, hd, -, -, hphase, -⟩ := h
    by_cases hu : t = u
    · rw [hu]
    · rw [hphase, Function.update_of_ne hu] at ht
      exact absurd ht (serial_outside hd hc₀ t b)

theorem serialised_lock {c₀ c : Config T σ ρ} {ts : List T} (h : Serialised body c₀ ts c)
    {t : T} (ho : c.owner = none) (ht : c.phase t = .waiting) :
    Serialised body c₀ (ts ++ [t])
      { c with owner := some t, phase := Function.update c.phase t (.inside (body t)) } := by
  unfold Serialised at h
  rw [ho] at h
  exact ⟨ts, c, body t, rfl, h, ho, ht, rfl, rfl⟩

theorem serialised_act {c₀ c : Config T σ ρ} {ts : List T} (h : Serialised body c₀ ts c)
    {t : T} (ho : c.owner = some t) {α : Type} {act : σ → Option (σ × α)}
    {rest : α → Body σ ρ} (ht : c.phase t = .inside (.step act rest)) {p : σ × α}
    (hp : act c.shared = some p) :
    Serialised body c₀ ts
      { c with shared := p.1, phase := Function.update c.phase t (.inside (rest p.2)) } := by
  unfold Serialised at h ⊢
  simp only [ho] at h ⊢
  obtain ⟨us, d, b, hts, hd, hdo, hdt, hphase, hrun⟩ := h
  have hb : b = .step act rest := by
    rw [hphase, Function.update_self] at ht
    exact Phase.inside.inj ht
  refine ⟨us, d, rest p.2, hts, hd, hdo, hdt, ?_, ?_⟩
  · rw [hphase, Function.update_idem]
  · rw [← hrun, hb, Body.run, hp, Option.bind_some]

theorem serialised_unlock {c₀ c : Config T σ ρ} {ts : List T} (h : Serialised body c₀ ts c)
    {t : T} (ho : c.owner = some t) {r : ρ} (ht : c.phase t = .inside (.done r)) :
    Serialised body c₀ ts
      { c with owner := none, phase := Function.update c.phase t (.left r) } := by
  unfold Serialised at h ⊢
  simp only [ho] at h ⊢
  obtain ⟨us, d, b, hts, hd, hdo, -, hphase, hrun⟩ := h
  have hb : b = .done r := by
    rw [hphase, Function.update_self] at ht
    exact Phase.inside.inj ht
  rw [hb, Body.run] at hrun
  rw [hts, serial_append, hd, Option.bind_some, serial, ← hrun, Option.bind_some, serial, hphase,
    Function.update_idem, hdo]

theorem step_serialised {c₀ c c' : Config T σ ρ} {ts : List T}
    (hc₀ : ∀ t b, c₀.phase t ≠ .inside b) (h : Serialised body c₀ ts c) {e : Event T}
    (hs : Step body c e c') : Serialised body c₀ (ts ++ acquired [e]) c' := by
  unfold Step at hs
  cases e with
  | lock t =>
    simp only [next] at hs
    split at hs
    · next ho ht =>
      obtain rfl := Option.some.inj hs
      exact serialised_lock h ho ht
    · cases hs
  | act t =>
    simp only [next] at hs
    split at hs
    · next act rest ht =>
      obtain ⟨p, hp, rfl⟩ := Option.map_eq_some_iff.mp hs
      simpa [acquired] using serialised_act h (h.inside hc₀ ht) ht hp
    · cases hs
  | unlock t =>
    simp only [next] at hs
    split at hs
    · next r ht =>
      obtain rfl := Option.some.inj hs
      simpa [acquired] using serialised_unlock h (h.inside hc₀ ht) ht
    · cases hs

omit [DecidableEq T] in
theorem begin_outside (s : σ) (t : T) (b : Body σ ρ) :
    (begin s : Config T σ ρ).phase t ≠ .inside b := by
  intro h
  cases h

theorem run_serialised {s : σ} {es : List (Event T)} {c : Config T σ ρ}
    (hr : Run (Step body) (begin s) es c) : Serialised body (begin s) (acquired es) c := by
  induction hr with
  | nil => rfl
  | snoc _ hs ih =>
    rw [acquired_append]
    exact step_serialised (begin_outside s) ih hs

theorem run_exclusive {s : σ} {es : List (Event T)} {c : Config T σ ρ}
    (hr : Run (Step body) (begin s) es c) {t u : T} {b b' : Body σ ρ}
    (ht : c.phase t = .inside b) (hu : c.phase u = .inside b') : t = u := by
  have howner := (run_serialised hr).inside (begin_outside s) ht
  rw [(run_serialised hr).inside (begin_outside s) hu] at howner
  exact (Option.some.inj howner).symm

theorem inside_leaves {c : Config T σ ρ} {t : T} {b : Body σ ρ} (ht : c.phase t = .inside b)
    {p : σ × ρ} (hp : b.run c.shared = some p) :
    ∃ es, Run (Step body) c es
        ⟨p.1, none, Function.update c.phase t (.left p.2)⟩ ∧ acquired es = [] := by
  induction b generalizing c with
  | done r =>
    obtain rfl := Option.some.inj hp
    refine ⟨[.unlock t], .cons ?_ (.nil _), rfl⟩
    rw [Step, next, ht]
  | step act rest ih =>
    obtain ⟨q, hq, hrest⟩ := Option.bind_eq_some_iff.mp hp
    obtain ⟨es, hr, hes⟩ := @ih q.2
      { c with shared := q.1, phase := Function.update c.phase t (.inside (rest q.2)) }
      (Function.update_self ..) hrest
    rw [Function.update_idem] at hr
    refine ⟨.act t :: es, .cons ?_ hr, hes⟩
    rw [Step, next, ht]
    exact (congrArg (Option.map _) hq)

/-- Whole bodies do not fault from a state that meets `P`, and end in one. -/
def Completes (body : T → Body σ ρ) (P : σ → Prop) : Prop :=
  ∀ t s, P s → ∃ p, (body t).run s = some p ∧ P p.1

theorem serial_completes {P : σ → Prop} (hP : Completes body P) {c d : Config T σ ρ}
    {ts : List T} (h : serial body c ts = some d) (hc : P c.shared) : P d.shared := by
  induction ts generalizing c with
  | nil => rwa [← Option.some.inj h]
  | cons t ts ih =>
    obtain ⟨p, hp, hrest⟩ := Option.bind_eq_some_iff.mp h
    obtain ⟨q, hq, hPq⟩ := hP t c.shared hc
    obtain rfl := Option.some.inj (hp.symm.trans hq)
    exact ih hrest hPq

theorem free_leaves {P : σ → Prop} (hP : Completes body P) {c : Config T σ ρ}
    (ho : c.owner = none) (hc : P c.shared) {t : T} (ht : ∀ b, c.phase t ≠ .inside b) :
    ∃ es c', Run (Step body) c es c' ∧ ∃ r, c'.phase t = .left r := by
  cases hp : c.phase t with
  | inside b => exact absurd hp (ht b)
  | left r => exact ⟨[], c, .nil c, r, hp⟩
  | waiting =>
    obtain ⟨p, hrun, -⟩ := hP t c.shared hc
    have hlock : Step body c (.lock t)
        { c with owner := some t, phase := Function.update c.phase t (.inside (body t)) } := by
      simp only [Step, next, ho, hp]
    obtain ⟨es, hr, -⟩ := inside_leaves
      (c := { c with owner := some t, phase := Function.update c.phase t (.inside (body t)) })
      (Function.update_self ..) hrun
    exact ⟨_, _, .cons hlock hr, p.2, Function.update_self ..⟩

theorem inside_completes {P : σ → Prop} (hP : Completes body P) {s : σ} (hs : P s)
    {es : List (Event T)} {c : Config T σ ρ} (hr : Run (Step body) (begin s) es c) {t : T}
    {b : Body σ ρ} (ht : c.phase t = .inside b) : ∃ p, b.run c.shared = some p ∧ P p.1 := by
  have hserial := run_serialised hr
  have howner := hserial.inside (begin_outside s) ht
  unfold Serialised at hserial
  rw [howner] at hserial
  obtain ⟨us, d, rest, -, hd, -, -, hphase, hrun⟩ := hserial
  rw [hphase, Function.update_self] at ht
  obtain rfl := Phase.inside.inj ht
  obtain ⟨p, hp, hPp⟩ := hP t d.shared (serial_completes hP hd hs)
  exact ⟨p, hrun.trans hp, hPp⟩

theorem run_progress {P : σ → Prop} (hP : Completes body P) {s : σ} (hs : P s)
    {es : List (Event T)} {c : Config T σ ρ} (hr : Run (Step body) (begin s) es c) {t : T}
    {b : Body σ ρ} (ht : c.phase t = .inside b) :
    (∃ r, b = .done r) ∨ ∃ c', Step body c (.act t) c' := by
  obtain ⟨p, hp, -⟩ := inside_completes hP hs hr ht
  cases b with
  | done r => exact Or.inl ⟨r, rfl⟩
  | step act rest =>
    obtain ⟨q, hq, -⟩ := Option.bind_eq_some_iff.mp hp
    refine Or.inr ⟨{ c with
      shared := q.1, phase := Function.update c.phase t (.inside (rest q.2)) }, ?_⟩
    rw [Step, next, ht]
    exact congrArg (Option.map _) hq

/-- However a run went, every thread can still get in and out. -/
theorem run_leaves {P : σ → Prop} (hP : Completes body P) {s : σ} (hs : P s)
    {es : List (Event T)} {c : Config T σ ρ} (hr : Run (Step body) (begin s) es c) (t : T) :
    ∃ es' c', Run (Step body) c es' c' ∧ ∃ r, c'.phase t = .left r := by
  have hserial := run_serialised hr
  unfold Serialised at hserial
  cases ho : c.owner with
  | none =>
    rw [ho] at hserial
    exact free_leaves hP ho (serial_completes hP hserial hs)
      (serial_outside hserial (begin_outside s) t)
  | some u =>
    rw [ho] at hserial
    obtain ⟨us, d, rest, -, hd, -, -, hphase, -⟩ := hserial
    have hu : c.phase u = .inside rest := by rw [hphase, Function.update_self]
    obtain ⟨p, hp, hPp⟩ := inside_completes hP hs hr hu
    obtain ⟨es', hr', -⟩ := inside_leaves hu hp
    have hout : ∀ b, Function.update c.phase u (.left p.2) t ≠ .inside b := by
      intro b he
      by_cases htu : t = u
      · subst htu
        rw [Function.update_self] at he
        cases he
      · rw [Function.update_of_ne htu, hphase, Function.update_of_ne htu] at he
        exact serial_outside hd (begin_outside s) t b he
    obtain ⟨es'', c'', hr'', hleft⟩ := free_leaves hP
      (c := ⟨p.1, none, Function.update c.phase u (.left p.2)⟩) rfl hPp hout
    exact ⟨_, c'', hr'.append hr'', hleft⟩

theorem serial_replied {s : σ} {ts : List T} {c : Config T σ ρ}
    (h : serial body (begin s) ts = some c) {t : T} {r : ρ} (ht : c.phase t = .left r) :
    ∃ us d q, us ++ [t] <+: ts ∧ serial body (begin s) us = some d ∧
      (body t).run d.shared = some (q, r) := by
  induction ts using List.reverseRecOn generalizing c with
  | nil =>
    obtain rfl := Option.some.inj h
    cases ht
  | append_singleton ts u ih =>
    rw [serial_append] at h
    obtain ⟨d, hd, hlast⟩ := Option.bind_eq_some_iff.mp h
    obtain ⟨p, hp, hc⟩ := Option.bind_eq_some_iff.mp hlast
    obtain rfl := Option.some.inj hc
    have ht : Function.update d.phase u (.left p.2) t = .left r := ht
    by_cases hu : t = u
    · subst hu
      rw [Function.update_self] at ht
      obtain rfl := Phase.left.inj ht
      exact ⟨ts, d, p.1, List.prefix_refl _, hd, hp⟩
    · rw [Function.update_of_ne hu] at ht
      obtain ⟨us, d', q, hus, hd', hq⟩ := ih hd ht
      exact ⟨us, d', q, hus.trans (List.prefix_append ts [u]), hd', hq⟩

/-- A thread that has left got what its whole body gives after those before it. -/
theorem run_replied {s : σ} {es : List (Event T)} {c : Config T σ ρ}
    (hr : Run (Step body) (begin s) es c) {t : T} {r : ρ} (ht : c.phase t = .left r) :
    ∃ us d q, us ++ [t] <+: acquired es ∧ serial body (begin s) us = some d ∧
      (body t).run d.shared = some (q, r) := by
  have hserial := run_serialised hr
  unfold Serialised at hserial
  cases ho : c.owner with
  | none =>
    rw [ho] at hserial
    exact serial_replied hserial ht
  | some u =>
    rw [ho] at hserial
    obtain ⟨ts, d, rest, hts, hd, -, -, hphase, -⟩ := hserial
    have hne : t ≠ u := by
      rintro rfl
      rw [hphase, Function.update_self] at ht
      cases ht
    rw [hphase, Function.update_of_ne hne] at ht
    obtain ⟨us, d', q, hus, hd', hq⟩ := serial_replied hd ht
    exact ⟨us, d', q, hts ▸ hus.trans (List.prefix_append ts [u]), hd', hq⟩

end locked

section parts
variable {T σ ρ : Type} [DecidableEq T] {L : Type*}

/-- Threads that share the state without a lock. -/
structure Threads (T σ ρ : Type) : Type 1 where
  shared : σ
  body : T → Body σ ρ

def Threads.next (c : Threads T σ ρ) (t : T) : Option (Threads T σ ρ) :=
  match c.body t with
  | .done _ => none
  | .step act rest =>
    (act c.shared).map fun p => ⟨p.1, Function.update c.body t (rest p.2)⟩

def Threads.Step (c : Threads T σ ρ) (t : T) (c' : Threads T σ ρ) : Prop := c.next t = some c'

theorem Threads.Step.cases {c c' : Threads T σ ρ} {t : T} (h : Threads.Step c t c') :
    ∃ (α : Type) (act : σ → Option (σ × α)) (rest : α → Body σ ρ) (p : σ × α),
      c.body t = .step act rest ∧ act c.shared = some p ∧
      c' = ⟨p.1, Function.update c.body t (rest p.2)⟩ := by
  unfold Threads.Step Threads.next at h
  cases hb : c.body t with
  | done r => simp [hb] at h
  | step act rest =>
    rw [hb] at h
    obtain ⟨p, hp, he⟩ := Option.map_eq_some_iff.mp h
    exact ⟨_, act, rest, p, rfl, hp, he.symm⟩

theorem step_done {c c' : Threads T σ ρ} {t u : T} {r : ρ} (hu : c.body u = .done r)
    (hs : Threads.Step c t c') : c'.body u = .done r := by
  obtain ⟨α, act, rest, p, hbody, -, rfl⟩ := hs.cases
  have hne : u ≠ t := by
    rintro rfl
    rw [hbody] at hu
    cases hu
  exact (Function.update_of_ne hne ..).trans hu

variable (assemble : (T → L) → σ)

/-- From the part `l` the body ends in the part `l'` with the result `r`, whatever the other
parts are, and leaves those alone. -/
def Local (t : T) : Body σ ρ → L → L → ρ → Prop
  | .done r, l, l', r' => l = l' ∧ r = r'
  | .step act rest, l, l', r => ∃ m x,
    (∀ parts : T → L, parts t = l →
      act (assemble parts) = some (assemble (Function.update parts t m), x)) ∧
    Local t (rest x) m l' r

variable {assemble} {t : T} {α : Type} {l m l' : L}

theorem local_pure (a : α) : Local assemble t (pure a : Body σ α) l l a := ⟨rfl, rfl⟩

theorem Local.bind {b : Body σ α} {k : α → Body σ ρ} {a : α} {r : ρ}
    (hb : Local assemble t b l m a) (hk : Local assemble t (k a) m l' r) :
    Local assemble t (b >>= k) l l' r := by
  change Local assemble t (b.bind k) l l' r
  induction b generalizing l with
  | done a' =>
    obtain ⟨rfl, rfl⟩ := hb
    exact hk
  | step act rest ih =>
    obtain ⟨n, x, hact, hrest⟩ := hb
    exact ⟨n, x, hact, ih x hrest⟩

theorem local_read {f : σ → Option α} {x : α}
    (h : ∀ parts : T → L, parts t = l → f (assemble parts) = some x) :
    Local assemble t (Body.read f) l l x := by
  refine ⟨l, x, fun parts hl => ?_, rfl, rfl⟩
  refine (congrArg (Option.map _) (h parts hl)).trans ?_
  rw [← hl, Function.update_eq_self, Option.map_some]

theorem local_write {f : σ → Option σ}
    (h : ∀ parts : T → L, parts t = l →
      f (assemble parts) = some (assemble (Function.update parts t m))) :
    Local assemble t (Body.write f) l m () := by
  exact ⟨m, (), fun parts hl => congrArg (Option.map _) (h parts hl), rfl, rfl⟩

theorem Local.run {b : Body σ ρ} {r : ρ} (h : Local assemble t b l l' r) {parts : T → L}
    (hl : parts t = l) :
    b.run (assemble parts) = some (assemble (Function.update parts t l'), r) := by
  induction b generalizing l parts with
  | done r' =>
    obtain ⟨rfl, rfl⟩ := h
    rw [← hl, Function.update_eq_self]
    rfl
  | step act rest ih =>
    obtain ⟨n, x, hact, hrest⟩ := h
    rw [Body.run, hact parts hl, Option.bind_some]
    have hgo := ih x hrest (Function.update_self t n parts)
    rwa [Function.update_idem] at hgo

variable {before after : T → L} {body : T → Body σ ρ} {result : T → ρ}

/-- The state is put together from the threads' parts, and every thread's body is local. -/
def Apart (assemble : (T → L) → σ) (after : T → L) (result : T → ρ) (c : Threads T σ ρ) : Prop :=
  ∃ parts, c.shared = assemble parts ∧
    ∀ t, Local assemble t (c.body t) (parts t) (after t) (result t)

theorem step_apart {c c' : Threads T σ ρ} (h : Apart assemble after result c) {t : T}
    (hs : Threads.Step c t c') : Apart assemble after result c' := by
  obtain ⟨parts, hshared, hlocal⟩ := h
  obtain ⟨α, act, rest, p, hbody, hact, rfl⟩ := hs.cases
  have ht := hlocal t
  rw [hbody] at ht
  obtain ⟨m, x, hstep, hrest⟩ := ht
  rw [hshared, hstep parts rfl] at hact
  obtain rfl := Option.some.inj hact
  refine ⟨Function.update parts t m, rfl, fun u => ?_⟩
  by_cases hu : u = t
  · subst hu
    simpa using hrest
  · simpa [hu] using hlocal u

theorem run_apart (h : ∀ t, Local assemble t (body t) (before t) (after t) (result t))
    {ts : List T} {c : Threads T σ ρ} (hr : Run Threads.Step ⟨assemble before, body⟩ ts c) :
    Apart assemble after result c :=
  hr.invariant (fun _ _ _ hc hs => step_apart hc hs) ⟨before, rfl, h⟩

theorem local_progress (h : ∀ t, Local assemble t (body t) (before t) (after t) (result t))
    {ts : List T} {c : Threads T σ ρ} (hr : Run Threads.Step ⟨assemble before, body⟩ ts c)
    (t : T) : (∃ r, c.body t = .done r) ∨ ∃ c', Threads.Step c t c' := by
  obtain ⟨parts, hshared, hlocal⟩ := run_apart h hr
  have ht := hlocal t
  cases hb : c.body t with
  | done r => exact Or.inl ⟨r, rfl⟩
  | step act rest =>
    rw [hb] at ht
    obtain ⟨m, x, hstep, -⟩ := ht
    refine Or.inr ⟨⟨assemble (Function.update parts t m), Function.update c.body t (rest x)⟩, ?_⟩
    rw [Threads.Step, Threads.next, hb, hshared]
    exact congrArg (Option.map _) (hstep parts rfl)

/-- When all are done, the order of their statements no longer shows. -/
theorem local_ended (h : ∀ t, Local assemble t (body t) (before t) (after t) (result t))
    {ts : List T} {c : Threads T σ ρ} (hr : Run Threads.Step ⟨assemble before, body⟩ ts c)
    (hdone : ∀ t, ∃ r, c.body t = .done r) :
    c.shared = assemble after ∧ ∀ t, c.body t = .done (result t) := by
  obtain ⟨parts, hshared, hlocal⟩ := run_apart h hr
  have hend : ∀ t, parts t = after t ∧ c.body t = .done (result t) := by
    intro t
    obtain ⟨r, hb⟩ := hdone t
    have ht := hlocal t
    rw [hb] at ht ⊢
    exact ⟨ht.1, congrArg Body.done ht.2⟩
  refine ⟨?_, fun t => (hend t).2⟩
  rw [hshared]
  exact congrArg assemble (funext fun t => (hend t).1)

theorem local_serial {ι : Type*} {thread : ι → T} {call : σ → ι → Option σ}
    (h : ∀ t, Local assemble t (body t) (before t) (after t) (result t)) {xs : List ι}
    (hcall : ∀ x ∈ xs, ∀ s, call s x = ((body (thread x)).run s).map Prod.fst)
    (hxs : (xs.map thread).Nodup) {parts : T → L}
    (hparts : ∀ x ∈ xs, parts (thread x) = before (thread x)) :
    xs.foldlM call (assemble parts) =
      some (assemble fun t => if t ∈ xs.map thread then after t else parts t) := by
  induction xs generalizing parts with
  | nil => simp
  | cons x xs ih =>
    obtain ⟨hnot, hxs⟩ := List.nodup_cons.mp hxs
    have hx := (h (thread x)).run (hparts x List.mem_cons_self)
    have hrest : ∀ y ∈ xs, Function.update parts (thread x) (after (thread x)) (thread y) =
        before (thread y) := by
      intro y hy
      have hne : thread y ≠ thread x := fun e => hnot (e ▸ List.mem_map_of_mem hy)
      rw [Function.update_of_ne hne]
      exact hparts y (List.mem_cons_of_mem x hy)
    rw [List.foldlM_cons, hcall x List.mem_cons_self, hx]
    refine (ih (fun y hy => hcall y (List.mem_cons_of_mem x hy)) hxs hrest).trans
      (congrArg (fun f => some (assemble f)) ?_)
    funext u
    by_cases hu : u = thread x
    · subst hu
      rw [if_neg hnot, Function.update_self, List.map_cons, if_pos List.mem_cons_self]
    · simp [hu]

end parts

end StatementBodies
