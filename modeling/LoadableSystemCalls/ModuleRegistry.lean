import LoadableSystemCalls.KernelTypes

/-! # The module registry (bitmap.c, main.c)

The list at head_node and the functions that walk it. `none` is a kernel oops: a read or
write through NULL or freed memory. -/
namespace ModuleRegistry

open KernelTypes

/-- The walk shared by get_module, remove_module and the two reference functions. -/
def findNode (k : Kernel) (test : Addr → Option Bool) :
    Option (Option (Option Addr × Addr × LinkedChain.Cell Addr Addr)) :=
  LinkedChain.seek k.nodes test k.nodes.keys.length none k.headNode

/-- `newNode` is what kmalloc returned. A failed allocation sets `ret` but does not return:
the next statement writes through NULL. -/
def addModule (newNode : Option Addr) (moduleReg : Addr) (k : Kernel) : Option (Kernel × ℤ) :=
  match newNode with
  | none => none
  | some a =>
    let nodes := k.nodes.insert a ⟨moduleReg, none⟩
    match k.headNode with
    | none => some ({ k with nodes := nodes, headNode := some a }, 0)
    | some head =>
      match LinkedChain.lastCell nodes nodes.keys.length none (some head) with
      | some (some prev) =>
        (LinkedChain.setNext nodes prev (some a)).map fun nodes => ({ k with nodes := nodes }, 0)
      | _ => none

/-- Unlinks and frees the first node whose module has this type. -/
def removeModule (type : ModuleType) (k : Kernel) : Option Kernel :=
  match findNode k (k.hasType type) with
  | none => none
  | some none => some k
  | some (some (prev, curr, c)) =>
    match prev with
    | some p =>
      (LinkedChain.setNext k.nodes p c.next).map fun nodes => { k with nodes := nodes.erase curr }
    | none =>
      (k.headNode.bind fun h => k.nodes.lookup h).map fun h =>
        { k with headNode := h.next, nodes := k.nodes.erase curr }

def getModule (type : ModuleType) (k : Kernel) : Option (Option Addr) :=
  (findNode k (k.hasType type)).map (·.map fun r => r.2.2.value)

/-- The list is searched for the pointer, then the reference is taken through it. -/
def incrementModuleRc (moduleReg : Addr) (k : Kernel) : Option Kernel :=
  match findNode k fun m => some (m = moduleReg) with
  | none => none
  | some none => some k
  | some (some (_, _, c)) => (k.mods.lookup c.value).map fun r => k.moduleGet r.module

def decrementModuleRc (moduleReg : Addr) (k : Kernel) : Option Kernel :=
  match findNode k fun m => some (m = moduleReg) with
  | none => none
  | some none => some { k with skippedPuts := k.skippedPuts + 1 }
  | some (some (_, _, c)) =>
    (k.mods.lookup c.value).map fun r =>
      if 0 < k.moduleRefcount r.module then k.modulePut r.module
      else { k with skippedPuts := k.skippedPuts + 1 }

def moduleRegister (newNode : Option Addr) (moduleReg : Addr) (k : Kernel) :
    Option (Kernel × ℤ) := addModule newNode moduleReg k

/-- Removal goes by the type stored in the structure, not by the structure. -/
def moduleDeregister (moduleReg : Addr) (k : Kernel) : Option (Kernel × ℤ) :=
  match k.mods.lookup moduleReg with
  | none => none
  | some r => (removeModule r.type k).map fun k => (k, 0)

def moduleList (k : Kernel) : Option (List Addr) :=
  LinkedChain.values k.nodes k.nodes.keys.length k.headNode

/-- The registry is a proper list of these modules, all of them loaded. -/
structure Listed (k : Kernel) (ms : List Addr) : Prop where
  chain : LinkedChain.Holds k.nodes k.headNode ms
  loaded : ∀ m ∈ ms, ∃ r, k.mods.lookup m = some r

theorem listed_boot (tasks : List TaskStruct) : Listed (boot tasks) [] :=
  ⟨⟨[], rfl, by simp, rfl⟩, by simp⟩

theorem Listed.congr {k k' : Kernel} {ms : List Addr} (h : Listed k ms)
    (hn : k'.nodes = k.nodes) (hh : k'.headNode = k.headNode) (hm : k'.mods = k.mods) :
    Listed k' ms :=
  ⟨hn ▸ hh ▸ h.chain, hm ▸ h.loaded⟩

theorem Listed.load {k : Kernel} {ms : List Addr} (h : Listed k ms) {m : Addr}
    (hm : k.mods.lookup m = none) (reg : ModuleReg) :
    Listed { k with mods := k.mods.insert m reg } ms := by
  refine ⟨h.chain, fun x hx => ?_⟩
  obtain ⟨r, hr⟩ := h.loaded x hx
  have hne : x ≠ m := by rintro rfl; simp [hm] at hr
  exact ⟨r, (AList.lookup_insert_ne hne).trans hr⟩

theorem Listed.moduleList {k : Kernel} {ms : List Addr} (h : Listed k ms) :
    moduleList k = some ms := h.chain.values

theorem Listed.unique {k : Kernel} {ms ms' : List Addr} (h : Listed k ms) (h' : Listed k ms') :
    ms = ms' := Option.some.inj (h.moduleList.symm.trans h'.moduleList)

theorem Listed.getModule {k : Kernel} {ms : List Addr} (h : Listed k ms) (type : ModuleType) :
    getModule type k = some (ms.find? (k.typeIs type)) :=
  h.chain.seek (k.hasType type) (k.typeIs type) fun m hm => by
    obtain ⟨r, hr⟩ := h.loaded m hm
    exact hasType_eq hr type

theorem Listed.findNode_pointer {k : Kernel} {ms : List Addr} (h : Listed k ms) {m : Addr}
    (hm : m ∈ ms) : ∃ prev a next,
      findNode k (fun x => some (x = m)) = some (some (prev, a, ⟨m, next⟩)) := by
  have hs := h.chain.seek (fun x => some (decide (x = m))) (fun x => x = m) fun _ _ => rfl
  have hf : ms.find? (fun x => decide (x = m)) = some m := by
    cases hc : ms.find? fun x => decide (x = m) with
    | none => exact absurd (List.find?_eq_none.mp hc m hm) (by simp)
    | some x => exact congrArg some (by simpa using List.find?_some hc)
  rw [hf] at hs
  obtain ⟨o, ho, ho'⟩ := Option.map_eq_some_iff.mp hs
  obtain ⟨⟨prev, a, v, next⟩, rfl, rfl⟩ := Option.map_eq_some_iff.mp ho'
  exact ⟨prev, a, next, ho⟩

theorem Listed.incrementModuleRc {k : Kernel} {ms : List Addr} (h : Listed k ms) {m : Addr}
    (hm : m ∈ ms) {r : ModuleReg} (hr : k.mods.lookup m = some r) :
    incrementModuleRc m k = some (k.moduleGet r.module) := by
  obtain ⟨prev, a, next, hf⟩ := h.findNode_pointer hm
  simp [ModuleRegistry.incrementModuleRc, hf, hr]

theorem Listed.decrementModuleRc {k : Kernel} {ms : List Addr} (h : Listed k ms) {m : Addr}
    (hm : m ∈ ms) {r : ModuleReg} (hr : k.mods.lookup m = some r) (hp : 0 < k.refcnt r.module) :
    decrementModuleRc m k = some (k.modulePut r.module) := by
  obtain ⟨prev, a, next, hf⟩ := h.findNode_pointer hm
  simp [ModuleRegistry.decrementModuleRc, hf, hr, Kernel.moduleRefcount, hp]

theorem Listed.addModule {k : Kernel} {ms : List Addr} (h : Listed k ms) {a m : Addr}
    (ha : k.nodes.lookup a = none) (hm : ∃ r, k.mods.lookup m = some r) :
    ∃ nodes head, addModule (some a) m k = some ({ k with nodes := nodes, headNode := head }, 0) ∧
      Listed { k with nodes := nodes, headNode := head } (ms ++ [m]) := by
  obtain ⟨⟨l, hl, hd, rfl⟩, hload⟩ := h
  have hload' : ∀ x ∈ l.map Prod.snd ++ [m], ∃ r, k.mods.lookup x = some r := by
    intro x hx
    rcases List.mem_append.mp hx with hx | hx
    · exact hload x hx
    · obtain rfl := List.mem_singleton.mp hx
      exact hm
  have fresh : a ∉ l.map Prod.fst := fun hx =>
    AList.lookup_eq_none.mp ha (AList.mem_keys.mpr (hl.mem_keys a hx))
  rcases List.eq_nil_or_concat l with rfl | ⟨l, ⟨b, y⟩, rfl⟩
  · have hhead : k.headNode = none := hl
    refine ⟨k.nodes.insert a ⟨m, none⟩, some a, ?_, ?_, hload'⟩
    · simp [ModuleRegistry.addModule, hhead]
    · exact .singleton (AList.lookup_insert _)
  · rw [List.concat_eq_append] at *
    have hins : LinkedChain.Segment (k.nodes.insert a ⟨m, none⟩) k.headNode (l ++ [(b, y)]) none :=
      LinkedChain.segment_insert_of_notMem hl fresh _
    obtain ⟨head, hhead⟩ : ∃ head, k.headNode = some head := by
      cases l with
      | nil => exact ⟨b, hl.1⟩
      | cons c l => exact ⟨c.1, hl.1⟩
    have hlast := LinkedChain.lastCell_of_segment hins (hins.length_le hd) none
    obtain ⟨q, -, rfl, n, hb, rfl⟩ := LinkedChain.segment_append.mp hins
    refine ⟨(k.nodes.insert a ⟨m, none⟩).insert b ⟨y, some a⟩, k.headNode, ?_, ?_, hload'⟩
    · simp only [List.getLast?_concat, Option.map_some, Option.some_or] at hlast
      rw [hhead] at hlast
      simp only [ModuleRegistry.addModule, hhead, hlast]
      simp [LinkedChain.setNext, hb]
    · refine ⟨l ++ [(b, y)] ++ [(a, m)], hl.append_cell hd fresh, ?_, by simp⟩
      rw [List.map_append, List.nodup_append]
      refine ⟨hd, by simp, ?_⟩
      intro x hx z hz
      obtain rfl : z = a := by simpa using hz
      intro e
      exact fresh (e ▸ hx)

theorem Listed.removeModule {k : Kernel} {ms : List Addr} (h : Listed k ms) (type : ModuleType) :
    ∃ nodes head, removeModule type k = some { k with nodes := nodes, headNode := head } ∧
      Listed { k with nodes := nodes, headNode := head } (ms.eraseP (k.typeIs type)) := by
  obtain ⟨⟨l, hl, hd, rfl⟩, hload⟩ := h
  have hn := hl.length_le hd
  have htest : ∀ x ∈ l.map Prod.snd, k.hasType type x = some (k.typeIs type x) := by
    intro x hx
    obtain ⟨r, hr⟩ := hload x hx
    exact hasType_eq hr type
  have hload' : ∀ x ∈ (l.map Prod.snd).eraseP (k.typeIs type), ∃ r, k.mods.lookup x = some r :=
    fun x hx => hload x (List.mem_of_mem_eraseP hx)
  by_cases hex : ∃ x ∈ l.map Prod.snd, k.typeIs type x = true
  · obtain ⟨x, as, bs, has, hx, hab, her⟩ :=
      List.exists_of_eraseP (p := k.typeIs type) hex.choose_spec.1 hex.choose_spec.2
    obtain ⟨l₁, l₂, rfl, rfl, hl₂⟩ := List.map_eq_append_iff.mp hab
    obtain ⟨⟨a, x⟩, l₃, rfl, rfl, rfl⟩ := List.map_eq_cons_iff.mp hl₂
    rw [her] at hload' ⊢
    obtain ⟨q, hq, rfl, n, ha, hrest⟩ := LinkedChain.segment_append.mp hl
    have hbefore : ∀ y ∈ l₁.map Prod.snd, k.hasType type y = some false := fun y hy => by
      rw [htest y (by rw [List.map_append]; exact List.mem_append_left _ hy)]
      simpa using has y hy
    have hseek := LinkedChain.seek_of_split hq ha hn none hbefore
      ((htest x (by simp)).trans (congrArg some hx))
    rcases List.eq_nil_or_concat l₁ with rfl | ⟨l₁, ⟨b, y⟩, rfl⟩
    · have hhead : k.headNode = some a := hq
      refine ⟨k.nodes.erase a, n, ?_, ⟨l₃, ?_, by simpa using hd.of_cons, by simp⟩, hload'⟩
      · rw [ModuleRegistry.removeModule, findNode, hseek]
        simp [hhead, ha]
      · exact hl.erase_head ha hd
    · rw [List.concat_eq_append] at *
      have happ : l₁ ++ [(b, y)] ++ (a, x) :: l₃ = l₁ ++ (b, y) :: (a, x) :: l₃ := by simp
      rw [happ] at hl hd
      obtain ⟨p, -, rfl, m, hb, -⟩ := LinkedChain.segment_append.mp hl
      refine ⟨(k.nodes.insert b ⟨y, n⟩).erase a, k.headNode, ?_,
        ⟨l₁ ++ (b, y) :: l₃, hl.erase_middle ha hd, ?_, by simp⟩, hload'⟩
      · rw [ModuleRegistry.removeModule, findNode, hseek]
        simp [LinkedChain.setNext, hb]
      · refine hd.sublist (List.Sublist.map Prod.fst ?_)
        simp
  · have hno : ∀ x ∈ l.map Prod.snd, k.typeIs type x = false := by simpa using hex
    rw [List.eraseP_of_forall_not (by simpa using hno)]
    refine ⟨k.nodes, k.headNode, ?_, ⟨l, hl, hd, rfl⟩, hload⟩
    rw [ModuleRegistry.removeModule, findNode,
      LinkedChain.seek_of_segment hl hn fun x hx => by rw [htest x hx, hno x hx]]

end ModuleRegistry
