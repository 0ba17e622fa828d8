import LoadableSystemCalls.StatementBodies

/-! # Two fields read while they are written

Threads write under their lock and others look on without it. Where each body writes the
second field before the first, a look at the first field and a later one at the second see
what two moments between whole bodies show, in this order. -/
namespace PublishedFields

open StatementBodies TransitionRuns

section bodies
variable {σ α ρ V : Type}

/-- No statement changes what `v` shows. -/
def Keeps (v : σ → V) : Body σ ρ → Prop
  | .done _ => True
  | .step act rest => ∀ s p, act s = some p → v p.1 = v s ∧ Keeps v (rest p.2)

def Always (P : σ → Prop) : Body σ ρ → σ → Prop
  | .done _, s => P s
  | .step act rest, s => P s ∧ ∀ p, act s = some p → Always P (rest p.2) p.1

/-- `A` holds up to some statement, and `B` behind it. -/
def Turns (A B : σ → Prop) : Body σ ρ → σ → Prop
  | .done _, s => B s
  | .step act rest, s => Always B (.step act rest) s ∨
    A s ∧ ∀ p, act s = some p → Turns A B (rest p.2) p.1

variable {A B P : σ → Prop} {v : σ → V}

theorem keeps_pure (a : α) : Keeps v (pure a : Body σ α) := trivial

theorem keeps_bind {b : Body σ α} {k : α → Body σ ρ} (hb : Keeps v b) (hk : ∀ r, Keeps v (k r)) :
    Keeps v (b >>= k) := by
  change Keeps v (b.bind k)
  induction b with
  | done r => exact hk r
  | step act rest ih =>
    intro s p hp
    obtain ⟨hv, hrest⟩ := hb s p hp
    exact ⟨hv, ih p.2 hrest⟩

theorem keeps_read_bind {f : σ → Option α} {k : α → Body σ ρ}
    (hk : ∀ s x, f s = some x → Keeps v (k x)) : Keeps v (Body.read f >>= k) := by
  intro s p hp
  obtain ⟨x, hx, rfl⟩ := Option.map_eq_some_iff.mp hp
  exact ⟨rfl, hk s x hx⟩

theorem keeps_write {f : σ → Option σ} (hf : ∀ s s', f s = some s' → v s' = v s) :
    Keeps v (Body.write f) := by
  intro s p hp
  obtain ⟨s', hs', rfl⟩ := Option.map_eq_some_iff.mp hp
  exact ⟨hf s s' hs', trivial⟩

theorem keeps_foldlM_read {β γ : Type} (f : σ → β → γ → Option β) (xs : List γ) (b : β) :
    Keeps v (xs.foldlM (fun b x => Body.read fun s => f s b x) b : Body σ β) := by
  induction xs generalizing b with
  | nil => trivial
  | cons x xs ih =>
    rw [List.foldlM_cons]
    exact keeps_read_bind fun _ b' _ => ih b'

theorem always_of_keeps {b : Body σ ρ} (h : Keeps v b) {s : σ} {x : V} (hs : v s = x) :
    Always (fun s => v s = x) b s := by
  induction b generalizing s with
  | done r => exact hs
  | step act rest ih =>
    refine ⟨hs, fun p hp => ?_⟩
    obtain ⟨hv, hrest⟩ := h s p hp
    exact ih p.2 hrest (hv.trans hs)

theorem Always.now {b : Body σ ρ} {s : σ} (h : Always P b s) : P s := by
  cases b with
  | done r => exact h
  | step act rest => exact h.1

theorem Always.mono {Q : σ → Prop} (hPQ : ∀ s, P s → Q s) {b : Body σ ρ} {s : σ}
    (h : Always P b s) : Always Q b s := by
  induction b generalizing s with
  | done r => exact hPQ s h
  | step act rest ih => exact ⟨hPQ s h.1, fun p hp => ih p.2 (h.2 p hp)⟩

theorem always_bind {b : Body σ α} {k : α → Body σ ρ} {s : σ} (hb : Always P b s)
    (hk : ∀ p, b.run s = some p → Always P (k p.2) p.1) : Always P (b >>= k) s := by
  change Always P (b.bind k) s
  induction b generalizing s with
  | done r => exact hk (s, r) rfl
  | step act rest ih =>
    refine ⟨hb.1, fun p hp => ih p.2 (hb.2 p hp) fun q hq => hk q ?_⟩
    rw [Body.run, hp, Option.bind_some, hq]

theorem turns_of_always {b : Body σ ρ} {s : σ} (h : Always B b s) : Turns A B b s := by
  cases b with
  | done r => exact h
  | step act rest => exact Or.inl h

theorem Turns.now {b : Body σ ρ} {s : σ} (h : Turns A B b s) : Always B b s ∨ A s := by
  cases b with
  | done r => exact Or.inl h
  | step act rest => exact h.imp id And.left

theorem Turns.mono {A' B' : σ → Prop} (hA : ∀ s, A s → A' s) (hB : ∀ s, B s → B' s)
    {b : Body σ ρ} {s : σ} (h : Turns A B b s) : Turns A' B' b s := by
  induction b generalizing s with
  | done r => exact hB s h
  | step act rest ih =>
    rcases h with h | ⟨hnow, hrest⟩
    · exact Or.inl (h.mono hB)
    · exact Or.inr ⟨hA s hnow, fun p hp => ih p.2 (hrest p hp)⟩

theorem Always.ends {b : Body σ ρ} {s : σ} (h : Always P b s) {p : σ × ρ}
    (hp : b.run s = some p) : P p.1 := by
  induction b generalizing s with
  | done r =>
    obtain rfl := Option.some.inj hp
    exact h
  | step act rest ih =>
    obtain ⟨q, hq, hrest⟩ := Option.bind_eq_some_iff.mp hp
    exact ih q.2 (h.2 q hq) hrest

theorem Turns.ends {b : Body σ ρ} {s : σ} (h : Turns A B b s) {p : σ × ρ}
    (hp : b.run s = some p) : B p.1 := by
  induction b generalizing s with
  | done r =>
    obtain rfl := Option.some.inj hp
    exact h
  | step act rest ih =>
    rcases h with h | ⟨-, hstep⟩
    · exact h.ends hp
    · obtain ⟨q, hq, hrest⟩ := Option.bind_eq_some_iff.mp hp
      exact ih q.2 (hstep q hq) hrest

theorem turns_bind {b : Body σ α} {k : α → Body σ ρ} {s : σ} (hb : Always A b s)
    (hk : ∀ p, b.run s = some p → Turns A B (k p.2) p.1) : Turns A B (b >>= k) s := by
  change Turns A B (b.bind k) s
  induction b generalizing s with
  | done r => exact hk (s, r) rfl
  | step act rest ih =>
    refine Or.inr ⟨hb.1, fun p hp => ih p.2 (hb.2 p hp) fun q hq => hk q ?_⟩
    rw [Body.run, hp, Option.bind_some, hq]

theorem turns_read_bind {f : σ → Option α} {k : α → Body σ ρ} {s : σ} {x : α} (hs : A s)
    (hx : f s = some x) (hk : Turns A B (k x) s) : Turns A B (Body.read f >>= k) s := by
  refine Or.inr ⟨hs, fun p hp => ?_⟩
  obtain ⟨y, hy, rfl⟩ := Option.map_eq_some_iff.mp hp
  obtain rfl := Option.some.inj (hx.symm.trans hy)
  exact hk

theorem Turns.bind {b : Body σ α} {k : α → Body σ ρ} {s : σ} (hb : Turns A B b s)
    (hk : ∀ p, b.run s = some p → Always B (k p.2) p.1) : Turns A B (b >>= k) s := by
  change Turns A B (b.bind k) s
  induction b generalizing s with
  | done r => exact turns_of_always (hk (s, r) rfl)
  | step act rest ih =>
    rcases hb with hB | ⟨hA, hrest⟩
    · exact Or.inl (always_bind hB hk)
    · refine Or.inr ⟨hA, fun p hp => ih p.2 (hrest p hp) fun q hq => hk q ?_⟩
      rw [Body.run, hp, Option.bind_some, hq]

theorem turns_write {f : σ → Option σ} {s : σ} (hs : A s) (hf : ∀ s', f s = some s' → B s') :
    Turns A B (Body.write f) s := by
  refine Or.inr ⟨hs, fun p hp => ?_⟩
  obtain ⟨s', hs', rfl⟩ := Option.map_eq_some_iff.mp hp
  exact hf s' hs'

/-- Some state on the way meets `P`. -/
def Passes (P : σ → Prop) : Body σ ρ → σ → Prop
  | .done _, s => P s
  | .step act rest, s => P s ∨ ∃ p, act s = some p ∧ Passes P (rest p.2) p.1

theorem passes_now {b : Body σ ρ} {s : σ} (h : P s) : Passes P b s := by
  cases b with
  | done r => exact h
  | step act rest => exact Or.inl h

theorem passes_end {b : Body σ ρ} {s : σ} {p : σ × ρ} (hp : b.run s = some p) (h : P p.1) :
    Passes P b s := by
  induction b generalizing s with
  | done r =>
    obtain rfl := Option.some.inj hp
    exact h
  | step act rest ih =>
    obtain ⟨q, hq, hrest⟩ := Option.bind_eq_some_iff.mp hp
    exact Or.inr ⟨q, hq, ih q.2 hrest⟩

theorem Passes.bind {b : Body σ α} {s : σ} (h : Passes P b s) (k : α → Body σ ρ) :
    Passes P (b >>= k) s := by
  change Passes P (b.bind k) s
  induction b generalizing s with
  | done r => exact passes_now h
  | step act rest ih =>
    rcases h with h | ⟨p, hp, hrest⟩
    · exact Or.inl h
    · exact Or.inr ⟨p, hp, ih p.2 hrest⟩

theorem passes_read_bind {f : σ → Option α} {k : α → Body σ ρ} {s : σ} {x : α}
    (hx : f s = some x) (h : Passes P (k x) s) : Passes P (Body.read f >>= k) s :=
  Or.inr ⟨(s, x), congrArg (Option.map _) hx, h⟩

theorem passes_write {f : σ → Option σ} {s s' : σ} (hs : f s = some s') (h : P s') :
    Passes P (Body.write f) s :=
  Or.inr ⟨(s', ()), congrArg (Option.map _) hs, h⟩

end bodies

section fields
variable {T σ ρ : Type} {X Y : Type*} (first : σ → X) (second : σ → Y)

def Before (s s' x : σ) : Prop := first x = first s ∧ (second x = second s ∨ second x = second s')

def After (s' x : σ) : Prop := first x = first s' ∧ second x = second s'

/-- Each body ends, and turns once from the fields it found to the fields it leaves. -/
structure Publishes (body : T → Body σ ρ) (I : σ → Prop) : Prop where
  completes : Completes body I
  turns : ∀ t s p, I s → (body t).run s = some p →
    Turns (Before first second s p.1) (After first second p.1) (body t) s

def finished (c : Config T σ ρ) (ts : List T) : List T :=
  if c.owner.isNone then ts else ts.dropLast

variable [DecidableEq T] (body : T → Body σ ρ)

/-- A state shows the fields that the bodies `us` leave: all those begun so far, or all but
the one inside, where this has not turned yet. -/
inductive Stands (s₀ : σ) : List T → List T → Config T σ ρ → Prop where
  | free {ts c} (owner : c.owner = none) (serial : serial body (begin s₀) ts = some c) :
    Stands s₀ ts ts c
  | before {us t c d p rest} (owner : c.owner = some t)
    (serial : serial body (begin s₀) us = some d) (run : (body t).run d.shared = some p)
    (phase : c.phase t = .inside rest) (now : Before first second d.shared p.1 c.shared)
    (turns : Turns (Before first second d.shared p.1) (After first second p.1) rest c.shared) :
    Stands s₀ (us ++ [t]) us c
  | after {us t c d p rest} (owner : c.owner = some t)
    (serial : serial body (begin s₀) us = some d) (run : (body t).run d.shared = some p)
    (phase : c.phase t = .inside rest) (always : Always (After first second p.1) rest c.shared) :
    Stands s₀ (us ++ [t]) (us ++ [t]) c

variable {first second body} {I : σ → Prop} {s₀ : σ} {ts us : List T} {c c' : Config T σ ρ}

theorem stands_inside {t : T} {d : Config T σ ρ} {p : σ × ρ} {rest : Body σ ρ}
    (ho : c.owner = some t) (hserial : serial body (begin s₀) us = some d)
    (hrun : (body t).run d.shared = some p) (hphase : c.phase t = .inside rest)
    (hturns : Turns (Before first second d.shared p.1) (After first second p.1) rest c.shared) :
    ∃ us', us <+: us' ∧ Stands first second body s₀ (us ++ [t]) us' c := by
  rcases hturns.now with halways | hnow
  · exact ⟨us ++ [t], List.prefix_append us [t], .after ho hserial hrun hphase halways⟩
  · exact ⟨us, List.prefix_refl us, .before ho hserial hrun hphase hnow hturns⟩

theorem act_stands {t : T} {α : Type} {act : σ → Option (σ × α)} {rest : α → Body σ ρ}
    (h : Stands first second body s₀ ts us c) (ho : c.owner = some t)
    (ht : c.phase t = .inside (.step act rest)) {p : σ × α} (hp : act c.shared = some p) :
    ∃ us', us <+: us' ∧ Stands first second body s₀ ts us'
      { c with shared := p.1, phase := Function.update c.phase t (.inside (rest p.2)) } := by
  cases h with
  | free howner => simp [ho] at howner
  | before howner hserial hrun hphase hnow hturns =>
    obtain rfl := Option.some.inj (ho.symm.trans howner)
    obtain rfl := Phase.inside.inj (hphase.symm.trans ht)
    rcases hturns with halways | ⟨-, hturns⟩
    · exact ⟨_, List.prefix_append us [t],
        .after ho hserial hrun (Function.update_self ..) (halways.2 p hp)⟩
    · exact stands_inside ho hserial hrun (Function.update_self ..) (hturns p hp)
  | after howner hserial hrun hphase halways =>
    obtain rfl := Option.some.inj (ho.symm.trans howner)
    obtain rfl := Phase.inside.inj (hphase.symm.trans ht)
    exact ⟨_, List.prefix_refl _,
      .after ho hserial hrun (Function.update_self ..) (halways.2 p hp)⟩

theorem step_stands (hpub : Publishes first second body I) (hI : I s₀)
    (hserial : Serialised body (begin s₀) ts c) (h : Stands first second body s₀ ts us c)
    {e : Event T} (hs : Step body c e c') :
    ∃ us', us <+: us' ∧ Stands first second body s₀ (ts ++ acquired [e]) us' c' := by
  have hbegin : ∀ t b, (begin s₀ : Config T σ ρ).phase t ≠ .inside b := by
    intro t b he
    cases he
  have hserial' := step_serialised hbegin hserial hs
  unfold Step at hs
  cases e with
  | lock t =>
    simp only [next] at hs
    split at hs
    · next ho ht =>
      obtain rfl := Option.some.inj hs
      obtain ⟨rfl, hc⟩ : us = ts ∧ serial body (begin s₀) ts = some c := by
        cases h with
        | free _ hc => exact ⟨rfl, hc⟩
        | before howner => simp [ho] at howner
        | after howner => simp [ho] at howner
      have hIc : I c.shared := serial_completes hpub.completes hc hI
      obtain ⟨p, hp, -⟩ := hpub.completes t c.shared hIc
      exact stands_inside rfl hc hp (Function.update_self ..) (hpub.turns t c.shared p hIc hp)
    · cases hs
  | act t =>
    simp only [next] at hs
    split at hs
    · next act rest ht =>
      obtain ⟨p, hp, rfl⟩ := Option.map_eq_some_iff.mp hs
      have hnone : acquired [Event.act t] = [] := rfl
      rw [hnone, List.append_nil]
      exact act_stands h (hserial.inside hbegin ht) ht hp
    · cases hs
  | unlock t =>
    simp only [next] at hs
    split at hs
    · next r ht =>
      obtain rfl := Option.some.inj hs
      have hnone : acquired [Event.unlock t] = [] := rfl
      rw [hnone, List.append_nil] at hserial' ⊢
      refine ⟨ts, ?_, .free rfl hserial'⟩
      cases h with
      | free => exact List.prefix_refl _
      | before => exact List.prefix_append _ _
      | after => exact List.prefix_refl _
    · cases hs

theorem later_stands (hpub : Publishes first second body I) (hI : I s₀) {es es' : List (Event T)}
    (hr : Run (Step body) (begin s₀) es c)
    (h : Stands first second body s₀ (acquired es) us c) (hr' : Run (Step body) c es' c') :
    ∃ us', us <+: us' ∧ Stands first second body s₀ (acquired (es ++ es')) us' c' := by
  induction hr' with
  | nil => exact ⟨us, List.prefix_refl us, by rwa [List.append_nil]⟩
  | snoc hr₁ hs ih =>
    obtain ⟨us₁, hus₁, h₁⟩ := ih
    obtain ⟨us₂, hus₂, h₂⟩ := step_stands hpub hI (run_serialised (hr.append hr₁)) h₁ hs
    rw [← acquired_append, List.append_assoc] at h₂
    exact ⟨us₂, hus₁.trans hus₂, h₂⟩

theorem serial_snoc {t : T} {d : Config T σ ρ} {p : σ × ρ}
    (hserial : serial body (begin s₀) us = some d) (hrun : (body t).run d.shared = some p) :
    ∃ d', serial body (begin s₀) (us ++ [t]) = some d' ∧ d'.shared = p.1 := by
  rw [serial_append, hserial, Option.bind_some, serial, hrun, Option.bind_some, serial]
  exact ⟨_, rfl, rfl⟩

theorem stands_first (h : Stands first second body s₀ ts us c) :
    ∃ d, serial body (begin s₀) us = some d ∧ first c.shared = first d.shared := by
  cases h with
  | free _ hserial => exact ⟨c, hserial, rfl⟩
  | before _ hserial _ _ hnow _ => exact ⟨_, hserial, hnow.1⟩
  | after _ hserial hrun _ halways =>
    obtain ⟨d', hd', hshared⟩ := serial_snoc hserial hrun
    exact ⟨d', hd', by rw [hshared, halways.now.1]⟩

theorem stands_second (h : Stands first second body s₀ ts us c) :
    ∃ vs d, us <+: vs ∧ vs <+: ts ∧ serial body (begin s₀) vs = some d ∧
      second c.shared = second d.shared := by
  cases h with
  | free _ hserial => exact ⟨ts, c, List.prefix_refl _, List.prefix_refl _, hserial, rfl⟩
  | before _ hserial hrun _ hnow _ =>
    rcases hnow.2 with hold | hnew
    · exact ⟨us, _, List.prefix_refl _, List.prefix_append _ _, hserial, hold⟩
    · obtain ⟨d', hd', hshared⟩ := serial_snoc hserial hrun
      exact ⟨_, d', List.prefix_append _ _, List.prefix_refl _, hd', by rw [hshared, hnew]⟩
  | after _ hserial hrun _ halways =>
    obtain ⟨d', hd', hshared⟩ := serial_snoc hserial hrun
    exact ⟨_, d', List.prefix_refl _, List.prefix_refl _, hd', by rw [hshared, halways.now.2]⟩

theorem stands_finished (h : Stands first second body s₀ ts us c) : finished c ts <+: us := by
  cases h with
  | free owner => simp [finished, owner]
  | before owner => simp [finished, owner]
  | after owner => simp [finished, owner]

/-- The first field read at one state of a run and the second at a later one. What has left
its body before shows in both. -/
theorem fields_read (hpub : Publishes first second body I) (hI : I s₀)
    {c₁ c₂ : Config T σ ρ} {es es₁ es₂ : List (Event T)} (hr : Run (Step body) (begin s₀) es c)
    (hr₁ : Run (Step body) c es₁ c₁) (hr₂ : Run (Step body) c₁ es₂ c₂) :
    ∃ us vs d d', finished c (acquired es) <+: us ∧ us <+: vs ∧
      vs <+: acquired (es ++ es₁ ++ es₂) ∧
      serial body (begin s₀) us = some d ∧ first c₁.shared = first d.shared ∧
      serial body (begin s₀) vs = some d' ∧ second c₂.shared = second d'.shared := by
  have hbegin : Stands first second body s₀ (acquired []) [] (begin s₀) := .free rfl rfl
  obtain ⟨us₀, -, h⟩ := later_stands hpub hI (.nil _) hbegin hr
  obtain ⟨us₁, hus₁, h₁⟩ := later_stands hpub hI hr h hr₁
  obtain ⟨us₂, hus₂, h₂⟩ := later_stands hpub hI (hr.append hr₁) h₁ hr₂
  obtain ⟨d, hd, hfirst⟩ := stands_first h₁
  obtain ⟨vs, d', hvs, hts, hd', hsecond⟩ := stands_second h₂
  exact ⟨us₁, vs, d, d', (stands_finished h).trans hus₁, hus₂.trans hvs, hts, hd, hfirst, hd',
    hsecond⟩

end fields

theorem inside_passes {T σ ρ : Type} [DecidableEq T] {body : T → Body σ ρ} {P : σ → Prop}
    {c : Config T σ ρ} {t : T} {b : Body σ ρ} (ht : c.phase t = .inside b)
    (h : Passes P b c.shared) : ∃ es c', Run (Step body) c es c' ∧ P c'.shared := by
  induction b generalizing c with
  | done r => exact ⟨[], c, .nil c, h⟩
  | step act rest ih =>
    rcases h with h | ⟨p, hp, hrest⟩
    · exact ⟨[], c, .nil c, h⟩
    · obtain ⟨es, c', hr, hc'⟩ := @ih p.2
        { c with shared := p.1, phase := Function.update c.phase t (.inside (rest p.2)) }
        (Function.update_self ..) hrest
      refine ⟨.act t :: es, c', .cons ?_ hr, hc'⟩
      rw [Step, next, ht]
      exact congrArg (Option.map _) hp

theorem begin_passes {T σ ρ : Type} [DecidableEq T] {body : T → Body σ ρ} {P : σ → Prop} {s : σ}
    {t : T} (h : Passes P (body t) s) :
    ∃ es c, Run (Step body) (begin s) es c ∧ P c.shared := by
  let c₀ : Config T σ ρ :=
    ⟨s, some t, Function.update (fun _ => .waiting) t (.inside (body t))⟩
  have hinside : c₀.phase t = .inside (body t) := by simp only [c₀, Function.update_self]
  obtain ⟨es, c, hr, hc⟩ := inside_passes hinside h
  exact ⟨.lock t :: es, c, .cons rfl hr, hc⟩

section onlookers
variable {T U σ ρ ν : Type}

/-- Statements that only read, and take no lock. -/
inductive Look (σ ν : Type) : Type 1 where
  | done (r : ν)
  | read {α : Type} (f : σ → Option α) (rest : α → Look σ ν)

def Look.run : Look σ ν → σ → Option ν
  | .done r, _ => some r
  | .read f rest, s => (f s).bind fun x => (rest x).run s

def Look.result : Look σ ν → Option ν
  | .done r => some r
  | .read _ _ => none

theorem Look.done_of_result {l : Look σ ν} {r : ν} (h : l.result = some r) : l = .done r := by
  cases l with
  | done r' => rw [Option.some.inj h]
  | read f rest => cases h

structure Watched (T U σ ρ ν : Type) : Type 1 where
  threads : Config T σ ρ
  look : U → Look σ ν

inductive WatchedEvent (T U : Type) where
  | thread (e : Event T)
  | look (u : U)
  deriving DecidableEq, Repr

def watch (s : σ) (look : U → Look σ ν) : Watched T U σ ρ ν := ⟨begin s, look⟩

def WatchedEvent.ofThread : WatchedEvent T U → Option (Event T)
  | .thread e => some e
  | .look _ => none

def threadEvents (es : List (WatchedEvent T U)) : List (Event T) :=
  es.filterMap WatchedEvent.ofThread

theorem threadEvents_append (es es' : List (WatchedEvent T U)) :
    threadEvents (es ++ es') = threadEvents es ++ threadEvents es' :=
  List.filterMap_append ..

theorem begun_prefix (es es' : List (WatchedEvent T U)) :
    acquired (threadEvents es) <+: acquired (threadEvents (es ++ es')) := by
  rw [threadEvents_append, acquired_append]
  exact List.prefix_append _ _

variable [DecidableEq T] [DecidableEq U] (body : T → Body σ ρ)

def Watched.next (w : Watched T U σ ρ ν) : WatchedEvent T U → Option (Watched T U σ ρ ν)
  | .thread e => (StatementBodies.next body w.threads e).map fun c => { w with threads := c }
  | .look u =>
    match w.look u with
    | .done _ => none
    | .read f rest => (f w.threads.shared).map fun x =>
      { w with look := Function.update w.look u (rest x) }

def Watched.Step (w : Watched T U σ ρ ν) (e : WatchedEvent T U) (w' : Watched T U σ ρ ν) : Prop :=
  w.next body e = some w'

variable {body} {w w' : Watched T U σ ρ ν} {es : List (WatchedEvent T U)} {u : U}

theorem look_step {e : WatchedEvent T U} (hs : Watched.Step body w e w') :
    (∃ e', e = .thread e' ∧ Step body w.threads e' w'.threads ∧ w'.look = w.look) ∨
    ∃ (v : U) (α : Type) (f : σ → Option α) (rest : α → Look σ ν) (x : α), e = .look v ∧
      w.look v = .read f rest ∧ f w.threads.shared = some x ∧ w'.threads = w.threads ∧
      w'.look = Function.update w.look v (rest x) := by
  cases e with
  | thread e =>
    obtain ⟨c, hc, rfl⟩ := Option.map_eq_some_iff.mp hs
    exact Or.inl ⟨e, rfl, hc, rfl⟩
  | look v =>
    unfold Watched.Step Watched.next at hs
    cases hv : w.look v with
    | done r => simp [hv] at hs
    | read f rest =>
      simp only [hv] at hs
      obtain ⟨x, hx, rfl⟩ := Option.map_eq_some_iff.mp hs
      exact Or.inr ⟨v, _, f, rest, x, rfl, hv, hx, rfl, rfl⟩

theorem look_goes {α : Type} {f : σ → Option α} {rest : α → Look σ ν}
    (hu : w.look u = .read f rest) {x : α} (hx : f w.threads.shared = some x) :
    ∃ w', Watched.Step body w (.look u) w' ∧ w'.threads = w.threads ∧ w'.look u = rest x := by
  refine ⟨{ w with look := Function.update w.look u (rest x) }, ?_, rfl, Function.update_self ..⟩
  simp only [Watched.Step, Watched.next, hu, hx, Option.map_some]

def Faults (w : Watched T U σ ρ ν) (u : U) : Prop :=
  ∃ (α : Type) (f : σ → Option α) (rest : α → Look σ ν),
    w.look u = .read f rest ∧ f w.threads.shared = none

theorem run_threads (hr : Run (Watched.Step body) w es w') :
    Run (Step body) w.threads (threadEvents es) w'.threads := by
  induction hr with
  | nil => exact .nil _
  | snoc _ hs ih =>
    rw [threadEvents, List.filterMap_append]
    rcases look_step hs with ⟨e', rfl, hstep, -⟩ | ⟨v, α, f, rest, x, rfl, -, -, hsame, -⟩
    · exact ih.snoc hstep
    · rw [hsame]
      exact (List.append_nil (threadEvents _)).symm ▸ ih

theorem watched_threads {c c' : Config T σ ρ} {es : List (Event T)} (look : U → Look σ ν)
    (hr : Run (Step body) c es c') :
    Run (Watched.Step body) ⟨c, look⟩ (es.map .thread) ⟨c', look⟩ := by
  induction hr with
  | nil => exact .nil _
  | snoc _ hs ih =>
    rw [List.map_append]
    exact ih.snoc (congrArg (Option.map _) hs)

theorem run_done (hr : Run (Watched.Step body) w es w') {r : ν} (hu : w.look u = .done r) :
    w'.look u = .done r := by
  refine hr.invariant (P := fun w => w.look u = .done r) (fun s e t h hs => ?_) hu
  rcases look_step hs with ⟨e', -, -, hsame⟩ | ⟨v, α, f, rest, x, -, hv, -, -, hlook⟩
  · rw [hsame, h]
  · have hne : u ≠ v := by
      rintro rfl
      rw [h] at hv
      cases hv
    rw [hlook, Function.update_of_ne hne, h]

/-- An onlooker has not read yet, or has read at some moment of the run. -/
theorem run_read {α : Type} {f : σ → Option α} {rest : α → Look σ ν}
    (hr : Run (Watched.Step body) w es w') (hu : w.look u = .read f rest) :
    w'.look u = .read f rest ∨ ∃ es₁ es₂ w₁ x, es = es₁ ++ es₂ ∧
      Run (Watched.Step body) w es₁ w₁ ∧ Run (Watched.Step body) w₁ es₂ w' ∧
      f w₁.threads.shared = some x ∧ w₁.look u = rest x := by
  induction hr with
  | nil => exact Or.inl hu
  | snoc hr hs ih =>
    rcases ih with hstill | ⟨es₁, es₂, w₁, x, rfl, hr₁, hr₂, hx, hrest⟩
    · rcases look_step hs with ⟨e', -, -, hsame⟩ | ⟨v, β, g, k, y, -, hv, hy, hthreads, hlook⟩
      · exact Or.inl (by rw [hsame, hstill])
      · by_cases huv : u = v
        · subst huv
          obtain ⟨rfl, hf, hrest⟩ := Look.read.inj (hv.symm.trans hstill)
          obtain rfl := eq_of_heq hf
          obtain rfl := eq_of_heq hrest
          refine Or.inr ⟨_, [], _, y, (List.append_nil _).symm, hr.snoc hs, .nil _, ?_, ?_⟩
          · rw [hthreads, hy]
          · rw [hlook, Function.update_self]
        · exact Or.inl (by rw [hlook, Function.update_of_ne huv, hstill])
    · exact Or.inr ⟨es₁, _, w₁, x, List.append_assoc .., hr₁, hr₂.snoc hs, hx, hrest⟩

theorem run_keeps {V : Type} {v : σ → V} (hv : ∀ t, Keeps v (body t)) {s : σ} {es : List (Event T)}
    {c : Config T σ ρ} (hr : Run (Step body) (begin s) es c) : v c.shared = v s := by
  suffices h : v c.shared = v s ∧ ∀ t b, c.phase t = .inside b → Keeps v b from h.1
  refine hr.invariant
    (P := fun c => v c.shared = v s ∧ ∀ t b, c.phase t = .inside b → Keeps v b)
    (fun c e c' hc hs => ?_) ⟨rfl, fun t b he => by cases he⟩
  obtain ⟨hshared, hinside⟩ := hc
  have hupdate {t : T} {ph : Phase σ ρ} (hph : ∀ b, ph = .inside b → Keeps v b) :
      ∀ u b, Function.update c.phase t ph u = .inside b → Keeps v b := by
    intro u b hb
    by_cases hut : u = t
    · subst hut
      exact hph b (by rwa [Function.update_self] at hb)
    · exact hinside u b (by rwa [Function.update_of_ne hut] at hb)
  unfold Step at hs
  cases e with
  | lock t =>
    simp only [next] at hs
    split at hs
    · obtain rfl := Option.some.inj hs
      exact ⟨hshared, hupdate fun b hb => Phase.inside.inj hb ▸ hv t⟩
    · cases hs
  | act t =>
    simp only [next] at hs
    split at hs
    · next act rest ht =>
      obtain ⟨p, hp, rfl⟩ := Option.map_eq_some_iff.mp hs
      obtain ⟨hsame, hrest⟩ := hinside t _ ht c.shared p hp
      exact ⟨hsame.trans hshared, hupdate fun b hb => Phase.inside.inj hb ▸ hrest⟩
    · cases hs
  | unlock t =>
    simp only [next] at hs
    split at hs
    · obtain rfl := Option.some.inj hs
      exact ⟨hshared, hupdate fun b hb => by cases hb⟩
    · cases hs

end onlookers

end PublishedFields
