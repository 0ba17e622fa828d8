import LoadableSystemCalls.ModuleRegistry
import LoadableSystemCalls.TransitionRuns

/-! # Order of the registry under registration and deregistration

The list is compared with the history of the calls: the modules registered and not yet
deregistered, oldest first. Types may repeat. -/
namespace RegistryOrder

open KernelTypes ModuleRegistry TransitionRuns

inductive Call where
  | register (m : Addr) (reg : ModuleReg) (node : Addr)
  | deregister (m : Addr)
  deriving DecidableEq, Repr

/-- What the calls say is registered, whatever the list holds. -/
def record (ms : List Addr) : Call → List Addr
  | .register m _ _ => ms ++ [m]
  | .deregister m => ms.erase m

def perform (k : Kernel) : Call → Option Kernel
  | .register m reg node =>
    (moduleRegister (some node) m { k with mods := k.mods.insert m reg }).map Prod.fst
  | .deregister m => (moduleDeregister m k).map Prod.fst

structure Ledger where
  kernel : Kernel
  registered : List Addr

def start (tasks : List TaskStruct) : Ledger := ⟨boot tasks, []⟩

def Enabled (s : Ledger) : Call → Prop
  | .register m _ node => s.kernel.mods.lookup m = none ∧ s.kernel.nodes.lookup node = none
  | .deregister m => m ∈ s.registered

def Step (s : Ledger) (c : Call) (t : Ledger) : Prop :=
  Enabled s c ∧ perform s.kernel c = some t.kernel ∧ t.registered = record s.registered c

instance (s : Ledger) (c : Call) : Decidable (Enabled s c) := by
  cases c <;> simp only [Enabled] <;> infer_instance

def next : Ledger → Call → Option Ledger :=
  guardedNext Enabled fun s c => (perform s.kernel c).map fun k => ⟨k, record s.registered c⟩

theorem next_sound (s : Ledger) (c : Call) (t : Ledger) (h : next s c = some t) : Step s c t := by
  obtain ⟨he, hp⟩ := guardedNext_eq_some.mp h
  obtain ⟨k, hk, rfl⟩ := Option.map_eq_some_iff.mp hp
  exact ⟨he, hk, rfl⟩

/-- The list is the history, and lookups by type find its earliest module. -/
def Ordered (s : Ledger) : Prop :=
  s.registered.Nodup ∧ moduleList s.kernel = some s.registered ∧
  ∀ type, getModule type s.kernel = some (s.registered.find? (s.kernel.typeIs type))

def EarliestOfType (s : Ledger) (m : Addr) : Prop :=
  ∀ r, s.kernel.mods.lookup m = some r → s.registered.find? (s.kernel.typeIs r.type) = some m

/-- Whatever was removed, the list stays a proper list of loaded modules. -/
structure Sound (s : Ledger) : Prop where
  listed : ∃ ms, Listed s.kernel ms
  known : ∀ m ∈ s.registered, ∃ r, s.kernel.mods.lookup m = some r
  nodup : s.registered.Nodup

theorem start_sound (tasks : List TaskStruct) : Sound (start tasks) :=
  ⟨⟨[], listed_boot tasks⟩, by simp [start], by simp [start]⟩

theorem step_deterministic (s : Ledger) (c : Call) (t u : Ledger) (ht : Step s c t)
    (hu : Step s c u) : t = u := by
  obtain ⟨-, hk, hr⟩ := ht
  obtain ⟨-, hk', hr'⟩ := hu
  cases t; cases u
  simp_all

theorem perform_register {k : Kernel} {ms : List Addr} (h : Listed k ms) {m node : Addr}
    (hm : k.mods.lookup m = none) (hn : k.nodes.lookup node = none) (reg : ModuleReg) :
    ∃ k', perform k (.register m reg node) = some k' ∧ k'.mods = k.mods.insert m reg ∧
      Listed k' (ms ++ [m]) := by
  obtain ⟨nodes, head, ha, hl⟩ := (h.load hm reg).addModule (a := node) hn
    (m := m) ⟨reg, AList.lookup_insert _⟩
  exact ⟨_, by rw [perform, moduleRegister, ha]; rfl, rfl, hl⟩

theorem perform_deregister {k : Kernel} {ms : List Addr} (h : Listed k ms) {m : Addr}
    {r : ModuleReg} (hr : k.mods.lookup m = some r) :
    ∃ k', perform k (.deregister m) = some k' ∧ k'.mods = k.mods ∧
      Listed k' (ms.eraseP (k.typeIs r.type)) := by
  obtain ⟨nodes, head, ha, hl⟩ := h.removeModule r.type
  refine ⟨{ k with nodes := nodes, headNode := head }, ?_, rfl, hl⟩
  simp [perform, moduleDeregister, hr, ha]

theorem enabled_step {s : Ledger} (h : Sound s) {c : Call} (he : Enabled s c) :
    ∃ t, Step s c t := by
  obtain ⟨ms, hl⟩ := h.listed
  cases c with
  | register m reg node =>
    obtain ⟨k', hk, -, -⟩ := perform_register hl he.1 he.2 reg
    exact ⟨⟨k', _⟩, he, hk, rfl⟩
  | deregister m =>
    obtain ⟨r, hr⟩ := h.known m he
    obtain ⟨k', hk, -, -⟩ := perform_deregister hl hr
    exact ⟨⟨k', _⟩, he, hk, rfl⟩

theorem step_sound {s t : Ledger} {c : Call} (h : Sound s) (hs : Step s c t) : Sound t := by
  obtain ⟨he, hk, hreg⟩ := hs
  obtain ⟨⟨ms, hl⟩, hknown, hnodup⟩ := h
  cases c with
  | register m reg node =>
    obtain ⟨k', hk', hmods, hl'⟩ := perform_register hl he.1 he.2 reg
    obtain rfl : k' = t.kernel := Option.some.inj (hk'.symm.trans hk)
    have hfresh : m ∉ s.registered := fun hm => by
      obtain ⟨r, hr⟩ := hknown m hm
      simp [he.1] at hr
    refine ⟨⟨_, hl'⟩, ?_, ?_⟩
    · intro x hx
      rw [hreg] at hx
      rw [hmods]
      rcases List.mem_append.mp hx with hx | hx
      · obtain ⟨r, hr⟩ := hknown x hx
        have hne : x ≠ m := fun e => hfresh (e ▸ hx)
        exact ⟨r, (AList.lookup_insert_ne hne).trans hr⟩
      · obtain rfl := List.mem_singleton.mp hx
        exact ⟨reg, AList.lookup_insert _⟩
    · rw [hreg, record, List.nodup_append]
      refine ⟨hnodup, by simp, fun x hx y hy => ?_⟩
      obtain rfl := List.mem_singleton.mp hy
      rintro rfl
      exact hfresh hx
  | deregister m =>
    obtain ⟨r, hr⟩ := hknown m he
    obtain ⟨k', hk', hmods, hl'⟩ := perform_deregister hl hr
    obtain rfl : k' = t.kernel := Option.some.inj (hk'.symm.trans hk)
    refine ⟨⟨_, hl'⟩, ?_, ?_⟩
    · intro x hx
      rw [hreg] at hx
      rw [hmods]
      exact hknown x (List.mem_of_mem_erase hx)
    · rw [hreg]
      exact hnodup.erase m

theorem run_sound {tasks : List TaskStruct} {cs : List Call} {s : Ledger}
    (h : Run Step (start tasks) cs s) : Sound s :=
  h.invariant (fun _ _ _ hs hst => step_sound hs hst) (start_sound tasks)

theorem ordered_iff_listed {s : Ledger} (h : Sound s) :
    Ordered s ↔ Listed s.kernel s.registered := by
  obtain ⟨ms, hl⟩ := h.listed
  constructor
  · rintro ⟨-, hml, -⟩
    obtain rfl : ms = s.registered := Option.some.inj (hl.moduleList.symm.trans hml)
    exact hl
  · intro hr
    exact ⟨h.nodup, hr.moduleList, hr.getModule⟩

theorem eraseP_eq_erase_iff {l : List Addr} (hd : l.Nodup) {m : Addr} (hm : m ∈ l)
    {p : Addr → Bool} (hp : p m = true) : l.eraseP p = l.erase m ↔ l.find? p = some m := by
  obtain ⟨x, hx⟩ : ∃ x, l.find? p = some x := by
    cases hf : l.find? p with
    | none => exact absurd hp (List.find?_eq_none.mp hf m hm)
    | some x => exact ⟨x, rfl⟩
  obtain ⟨hpx, as, bs, rfl, has⟩ := List.find?_eq_some_iff_append.mp hx
  have her : (as ++ x :: bs).eraseP p = as ++ bs := by
    rw [List.eraseP_append_right _ (by simpa using has)]
    simp [hpx]
  have hdx : x ∉ as ++ bs := (List.nodup_cons.mp (List.nodup_middle.mp hd)).1
  rw [her, hx, Option.some.injEq]
  constructor
  · intro he
    by_contra hne
    have hxe : x ∈ (as ++ x :: bs).erase m := (List.mem_erase_of_ne hne).mpr (by simp)
    exact hdx (he ▸ hxe)
  · rintro rfl
    rw [List.erase_append_right _ fun h => hdx (List.mem_append_left _ h)]
    simp

/-- A deregistration keeps the list in order just when it removes the caller's own node. -/
theorem deregister_ordered_iff {s t : Ledger} (h : Sound s) (ho : Ordered s) {m : Addr}
    (hs : Step s (.deregister m) t) : Ordered t ↔ EarliestOfType s m := by
  have ht := step_sound h hs
  obtain ⟨he, hk, hreg⟩ := hs
  have hl := (ordered_iff_listed h).mp ho
  obtain ⟨r, hr⟩ := h.known m he
  obtain ⟨k', hk', -, hl'⟩ := perform_deregister hl hr
  obtain rfl : k' = t.kernel := Option.some.inj (hk'.symm.trans hk)
  have hp : s.kernel.typeIs r.type m = true := by simp [Kernel.typeIs, hr]
  have hiff := eraseP_eq_erase_iff h.nodup he hp
  rw [ordered_iff_listed ht, hreg, record]
  constructor
  · intro hlt r' hr'
    obtain rfl : r = r' := Option.some.inj (hr.symm.trans hr')
    exact hiff.mp (hl'.unique hlt)
  · intro hearly
    rw [← hiff.mpr (hearly r hr)]
    exact hl'

theorem register_ordered {s t : Ledger} (h : Sound s) (ho : Ordered s) {m node : Addr}
    {reg : ModuleReg} (hs : Step s (.register m reg node) t) : Ordered t := by
  have ht := step_sound h hs
  obtain ⟨he, hk, hreg⟩ := hs
  obtain ⟨k', hk', -, hl'⟩ := perform_register ((ordered_iff_listed h).mp ho) he.1 he.2 reg
  obtain rfl : k' = t.kernel := Option.some.inj (hk'.symm.trans hk)
  rw [ordered_iff_listed ht, hreg]
  exact hl'

/-- Every deregistration in the run is by the earliest registered module of its type. -/
def RemovesEarliest (s₀ : Ledger) (cs : List Call) : Prop :=
  ∀ pre m s, pre ++ [.deregister m] <+: cs → Run Step s₀ pre s → EarliestOfType s m

def AlwaysOrdered (s₀ : Ledger) (cs : List Call) : Prop :=
  ∀ pre s, pre <+: cs → Run Step s₀ pre s → Ordered s

theorem ordered_of_removesEarliest {tasks : List TaskStruct} {cs : List Call} {s : Ledger}
    (h : Run Step (start tasks) cs s) (hc : RemovesEarliest (start tasks) cs) : Ordered s := by
  induction h with
  | nil => exact (ordered_iff_listed (start_sound tasks)).mpr (listed_boot tasks)
  | @snoc t u es e hr hs ih =>
    have ho : Ordered t := ih fun pre m s hp => hc pre m s (hp.trans (List.prefix_append _ _))
    cases e with
    | register m reg node => exact register_ordered (run_sound hr) ho hs
    | deregister m =>
      exact (deregister_ordered_iff (run_sound hr) ho hs).mpr
        (hc es m t (List.prefix_refl _) hr)

/-- No call faults, and the list follows the history exactly as long as each deregistered
module is the earliest registered one of its type. -/
theorem registry_is_history_iff {tasks : List TaskStruct} {cs : List Call} {s : Ledger}
    (h : Run Step (start tasks) cs s) :
    (∀ c, Enabled s c → ∃ t, Step s c t) ∧
    (AlwaysOrdered (start tasks) cs ↔ RemovesEarliest (start tasks) cs) := by
  refine ⟨fun c hc => enabled_step (run_sound h) hc, ?_, ?_⟩
  · intro ho pre m t hp ht
    obtain ⟨rest, rfl⟩ := hp
    obtain ⟨u, hu, -⟩ := h.split
    obtain ⟨t', ht', hs⟩ := hu.last
    obtain rfl := ht.unique step_deterministic ht'
    refine (deregister_ordered_iff (run_sound ht) (ho pre t ?_ ht) hs).mp
      (ho _ u (List.prefix_append _ _) hu)
    exact (List.prefix_append _ _).trans (List.prefix_append _ _)
  · intro hc pre t hp ht
    exact ordered_of_removesEarliest ht fun pre' m s hp' => hc pre' m s (hp'.trans hp)

theorem registry_is_history_iff_two_types :
    ∃ s, Run Step (start []) [.register 10 ⟨100, traceModule, 0⟩ 1,
        .register 20 ⟨200, protectModule, 0⟩ 2, .deregister 20] s ∧
      (∀ c, Enabled s c → ∃ t, Step s c t) := by
  have h : (replay next (start []) [.register 10 ⟨100, traceModule, 0⟩ 1,
      .register 20 ⟨200, protectModule, 0⟩ 2, .deregister 20]).isSome = true := by decide
  obtain ⟨s, hs⟩ := Option.isSome_iff_exists.mp h
  have hr := replay_sound next_sound hs
  exact ⟨s, hr, (registry_is_history_iff hr).1⟩

def twinCalls : List Call :=
  [.register 10 ⟨100, traceModule, 0⟩ 1, .register 20 ⟨200, traceModule, 0⟩ 2, .deregister 20]

theorem twinCalls_run : ∃ s, Run Step (start []) twinCalls s ∧
    moduleList s.kernel = some [20] ∧ s.registered = [10] := by
  have h : (replay next (start []) twinCalls).map
      (fun s => (moduleList s.kernel, s.registered)) = some (some [20], [10]) := by decide
  obtain ⟨s, hs, he⟩ := Option.map_eq_some_iff.mp h
  obtain ⟨hl, hr⟩ := Prod.mk.inj he
  exact ⟨s, replay_sound next_sound hs, hl, hr⟩

/-- The later module is asked to leave and the earlier one is unlinked. -/
theorem equal_types_unlink_the_other :
    ∃ s, Run Step (start []) twinCalls s ∧ ¬ Ordered s := by
  obtain ⟨s, hr, hl, hreg⟩ := twinCalls_run
  refine ⟨s, hr, fun ho => ?_⟩
  have := ho.2.1
  rw [hl, hreg] at this
  exact absurd this (by decide)

end RegistryOrder
