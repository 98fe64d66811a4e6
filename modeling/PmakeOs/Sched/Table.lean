import PmakeOs.Calls.Writes
import PmakeOs.Sched.Finality

/-!
# The table of environments on one CPU

A run starts when `env_init` has set up the table.  The kernel then creates
environments with `env_alloc`, and from the first environment on CPU 0 goes in and out
of the kernel.  The run keeps a history of the allocations: the slots and their new ids,
the latest first.

* `FreeTable` --- the slots on `env_free_list` are exactly those marked as free.
* `Generations` --- the id of a slot is determined by the number of times that it has
  been allocated.  With `laterEnvId_ne` this gives what is said about old ids.

On one CPU every entry is orderly, so the results on `Calm` states apply.
-/

namespace PmakeOs

open Lib

namespace Kernel

variable {s s' s₀ : Kernel} {A : ℕ → Prop} {c e v n : ℕ} {x : Entry}

/-! ## The free list -/

/-- `env_free_list` threads exactly the free slots of the table. -/
def FreeTable (s : Kernel) : Prop :=
  (∀ e, nenv ≤ e → (s.slots e).envStatus = .free) ∧
  ∃ l, Threads (fun e => (s.slots e).envLink) s.envFreeList l ∧
    ∀ e, e ∈ l ↔ e < nenv ∧ (s.slots e).envStatus = .free

theorem FreeTable.lt (h : FreeTable s) (hlive : (s.slots e).envStatus ≠ .free) : e < nenv := by
  by_contra h0
  exact hlive (h.1 e (Nat.le_of_not_lt h0))

theorem FreeTable.head (h : FreeTable s) (he : s.envFreeList = some e) : e < nenv := by
  obtain ⟨-, l, ht, hl⟩ := h
  rw [he] at ht
  obtain ⟨l', rfl, -⟩ := ht.exists_cons
  exact ((hl e).mp List.mem_cons_self).1

theorem FreeTable.freeSlots (h : FreeTable s) : FreeSlots s := by
  obtain ⟨-, l, ht, hl⟩ := h
  exact ⟨l, ht, fun e he => ((hl e).mp he).2⟩

/-- The same slots are free, with their links. -/
theorem FreeTable.frame (h : FreeTable s)
    (hs : ∀ e, (s.slots e).envStatus = .free → s'.slots e = s.slots e)
    (hfree : ∀ e, (s'.slots e).envStatus = .free → (s.slots e).envStatus = .free)
    (hf : s'.envFreeList = s.envFreeList) : FreeTable s' := by
  obtain ⟨hout, l, ht, hl⟩ := h
  refine ⟨fun e he => ?_, l, ?_, fun e => ?_⟩
  · rw [hs e (hout e he)]
    exact hout e he
  · rw [hf]
    exact ht.frame fun e he => by rw [hs e ((hl e).mp he).2]
  · rw [hl e]
    refine and_congr_right fun _ => ⟨fun h0 => ?_, hfree e⟩
    rw [hs e h0]
    exact h0

theorem FreeTable.alloc {st : EnvStatus} (h : FreeTable s) (hst : st ≠ .free)
    (ha : Allocated s s' e st) : FreeTable s' := by
  have hlt := h.head ha.head
  obtain ⟨hout, l, ht, hl⟩ := h
  obtain ⟨d, hs⟩ := ha.slots
  rw [ha.head] at ht
  have hnd := ht.nodup
  obtain ⟨l', rfl, ht'⟩ := ht.exists_cons
  have hmem : e ∉ l' := (List.nodup_cons.mp hnd).1
  have hother : ∀ j, j ≠ e → s'.slots j = s.slots j := by
    intro j hj
    rw [hs, Function.update_of_ne hj]
  refine ⟨fun j hj => ?_, l', ?_, fun j => ?_⟩
  · rw [hother j (by omega)]
    exact hout j hj
  · rw [ha.envFreeList]
    refine ht'.frame fun j hj => ?_
    rw [hother j fun h0 => hmem (h0 ▸ hj)]
  · rcases eq_or_ne j e with rfl | hj
    · rw [hs, Function.update_self]
      exact iff_of_false hmem fun h0 => hst h0.2
    · rw [hother j hj, ← hl j, List.mem_cons]
      exact ⟨Or.inr, fun h0 => h0.resolve_left hj⟩

theorem FreeTable.free (h : FreeTable s) (hlive : (s.slots e).envStatus ≠ .free)
    (hfr : Freed s s' e) : FreeTable s' := by
  have hlt := h.lt hlive
  obtain ⟨hout, l, ht, hl⟩ := h
  have hmem : e ∉ l := fun he => hlive ((hl e).mp he).2
  have hother : ∀ j, j ≠ e → s'.slots j = s.slots j := by
    intro j hj
    rw [hfr.slots, Function.update_of_ne hj]
  refine ⟨fun j hj => ?_, e :: l, ?_, fun j => ?_⟩
  · rw [hother j (by omega)]
    exact hout j hj
  · rw [hfr.envFreeList]
    refine .cons ?_
    rw [hfr.slots, Function.update_self]
    refine ht.frame fun j hj => ?_
    rw [Function.update_of_ne]
    rintro rfl
    exact hmem hj
  · rcases eq_or_ne j e with rfl | hj
    · exact iff_of_true List.mem_cons_self ⟨hlt, hfr.status⟩
    · rw [hother j hj, ← hl j, List.mem_cons]
      exact ⟨fun h0 => h0.resolve_left hj, Or.inr⟩

theorem FreeTable.act (h : FreeTable s) (ha : Act A n s s') : FreeTable s' := by
  cases ha with
  | quiet hq =>
    exact h.frame (fun _ _ => by rw [hq.slots]) (fun _ h0 => by rw [hq.slots] at h0; exact h0)
      hq.envFreeList
  | alloc hst hal =>
    refine h.alloc ?_ hal
    rcases hst with rfl | rfl <;> simp
  | @mark _ _ j st hlive hA _ hs hf _ =>
    have hst : st ≠ .free := by
      rcases hA with ⟨-, rfl | rfl⟩ | ⟨rfl, -, -⟩ <;> simp
    refine h.frame (fun i hi => ?_) (fun i hi => ?_) hf
    · rw [hs, Function.update_of_ne]
      rintro rfl
      exact hlive hi
    · rw [hs] at hi
      rcases eq_or_ne i j with rfl | hij
      · rw [Function.update_self] at hi
        exact absurd hi hst
      · rw [Function.update_of_ne hij] at hi
        exact hi
  | free hlive _ hfr => exact h.free hlive hfr
  | drop _ => exact h
  | dispatch _ _ => exact h

theorem FreeTable.acts (h : FreeTable s) (ha : Acts A n s s') : FreeTable s' := by
  induction ha with
  | refl => exact h
  | tail _ hstep ih => exact (ih h).act hstep

theorem FreeTable.ran {d : ℕ} (h : FreeTable s) (hst : (s.slots e).envStatus = .runnable ∨
      s.curenv = some e ∧ (s.slots e).envStatus = .running) (hr : Ran s s' e d) :
    FreeTable s' := by
  have hlive : (s.slots e).envStatus ≠ .free := by
    rcases hst with h0 | ⟨-, h0⟩ <;> rw [h0] <;> simp
  refine h.frame (fun j hj => ?_) (fun j hj => ?_) hr.envFreeList
  · have hne : j ≠ e := by
      rintro rfl
      exact hlive hj
    rw [hr.slots, ranSlots, if_neg hne, if_neg fun h0 => by rw [hj] at h0; cases h0.2]
  · rw [hr.slots, ranSlots] at hj
    split at hj
    · cases hj
    · split at hj
      · cases hj
      · exact hj

theorem FreeTable.leave (h : FreeTable s) (hl : Leave s s') : FreeTable s' := by
  cases hl with
  | run hcur hst hr => exact h.ran (Or.inr ⟨hcur, hst⟩) hr
  | @select _ e d hst hr =>
    have hnote : FreeTable (s.note (.select s.cpunum e)) := h
    exact hnote.ran hst hr
  | halt _ hs hf _ _ _ _ _ =>
    exact h.frame (fun _ _ => by rw [hs]) (fun _ h0 => by rw [hs] at h0; exact h0) hf
  | monitor => exact h

/-- The table with the slots from `k` up to `k + m` threaded in their order. -/
def linkedEnvs (v : ℕ → Env) (k m e : ℕ) : Env :=
  if k ≤ e ∧ e < k + m then
    { v e with envId := 0#32, envLink := if e + 1 < k + m then some (e + 1) else none }
  else v e

theorem linkedEnvs_of_mem (v : ℕ → Env) {k m e : ℕ} (hk : k ≤ e) (he : e < k + m) :
    linkedEnvs v k m e =
      { v e with envId := 0#32, envLink := if e + 1 < k + m then some (e + 1) else none } :=
  if_pos ⟨hk, he⟩

/-- The rounds of `env_init` from slot `k` on. -/
theorem envInit_loop (s : Kernel) (m : ℕ) : ∀ k,
    (List.range' k m).reverse.foldl envInitSlot { s with envFreeList := none } =
      { s with
        envs := linkedEnvs s.envs k m
        envFreeList := if m = 0 then none else some k } := by
  induction m with
  | zero =>
    intro k
    have hnone : linkedEnvs s.envs k 0 = s.envs := funext fun e => if_neg (by omega)
    rw [hnone]
    rfl
  | succ m ih =>
    intro k
    have hslot : Function.update (linkedEnvs s.envs (k + 1) m) k
        { linkedEnvs s.envs (k + 1) m k with
          envId := 0#32
          envLink := if m = 0 then none else some (k + 1) } = linkedEnvs s.envs k (m + 1) := by
      funext e
      rcases eq_or_ne e k with rfl | hne
      · have hlink : (if e + 1 < e + (m + 1) then some (e + 1) else none) =
            if m = 0 then none else some (e + 1) := by
          rcases Nat.eq_zero_or_pos m with rfl | hpos
          · rw [if_neg (Nat.lt_irrefl _), if_pos rfl]
          · rw [if_pos (by omega), if_neg (by omega)]
        rw [Function.update_self, linkedEnvs_of_mem s.envs le_rfl (by omega), hlink, linkedEnvs,
          if_neg (by omega)]
      · rw [Function.update_of_ne hne, linkedEnvs, linkedEnvs, Nat.add_right_comm k 1 m]
        exact if_congr (by omega) rfl rfl
    rw [List.range'_succ, List.reverse_cons, List.foldl_append, ih (k + 1), ← hslot]
    rfl

/-- **`env_init`** writes the table of environments only. -/
theorem envInit_eq (s : Kernel) :
    s.envInit = { s with envs := linkedEnvs s.envs 0 nenv, envFreeList := some 0 } := by
  rw [envInit, List.range_eq_range', envInit_loop]
  rfl

/-- The slots from `k` on are threaded. -/
theorem threads_linkedEnvs (v : ℕ → Env) {n : ℕ} (m : ℕ) : ∀ k, k + m = n →
    Threads (fun e => (linkedEnvs v 0 n e).envLink) (if m = 0 then none else some k)
      (List.range' k m) := by
  induction m with
  | zero => exact fun k _ => .nil
  | succ m ih =>
    intro k hk
    have hnext := ih (k + 1) (by omega)
    have hlink : (linkedEnvs v 0 n k).envLink = if m = 0 then none else some (k + 1) := by
      rw [linkedEnvs_of_mem v (Nat.zero_le k) (by omega)]
      rcases Nat.eq_zero_or_pos m with rfl | hpos
      · rw [if_pos rfl]
        exact if_neg (by omega)
      · rw [if_neg (show m ≠ 0 by omega)]
        exact if_pos (by omega)
    rw [← hlink] at hnext
    rw [if_neg (Nat.succ_ne_zero m), List.range'_succ]
    exact .cons hnext

/-- **`env_init` threads all slots, in the order of the table.** -/
theorem envInit_table (hfree : ∀ e, (s.envs e).envStatus = .free) :
    FreeTable s.envInit ∧ (∀ e, (s.envInit.envs e).envStatus = .free) ∧
      (∀ e < nenv, (s.envInit.envs e).envId = 0#32) ∧ s.envInit.cpus = s.cpus := by
  rw [envInit_eq]
  have hst : ∀ e, (linkedEnvs s.envs 0 nenv e).envStatus = .free := by
    intro e
    unfold linkedEnvs
    split
    · exact hfree e
    · exact hfree e
  refine ⟨⟨fun e _ => hst e, List.range' 0 nenv, threads_linkedEnvs s.envs nenv 0 (Nat.zero_add _),
    fun e => ?_⟩, hst, fun e he => ?_, rfl⟩
  · rw [List.mem_range'_1]
    exact ⟨fun h0 => ⟨by omega, hst e⟩, fun h0 => by omega⟩
  · show (linkedEnvs s.envs 0 nenv e).envId = 0#32
    rw [linkedEnvs_of_mem s.envs (Nat.zero_le e) (by omega)]

/-! ## Ids -/

/-- A new id is positive, and has the number of its slot. -/
theorem nextEnvId_pos (old : Word) (he : e < nenv) :
    0 < (nextEnvId old e).toInt ∧ (nextEnvId old e).toNat % 1024 = e := by
  have h := toNat_nextEnvId old he
  rw [nenv] at he
  rw [BitVec.toInt_eq_toNat_cond, h]
  split
  · exact ⟨by omega, by omega⟩
  · rename_i h0
    exact ⟨by omega, by omega⟩

theorem envx_of_mod {id : Word} (h : id.toNat % 1024 = e) : envx id = e := by
  rw [← h]
  exact toNat_and_mask id (by omega : 10 ≤ 32)

/-- An allocation: the slot and its new id. -/
abbrev Incarnation : Type := ℕ × Word

/-- The allocation that the entry `x` of CPU `c` makes, if it makes one: `sys_exofork`
returns a positive id. -/
def allocs (s : Kernel) (c : ℕ) : Entry → List Incarnation
  | .trap tf (.syscall .exofork) =>
    match (s.cpus c).cpuEnv with
    | none => []
    | some e =>
      if (s.envs e).envStatus = .dying then []
      else
        match s.envFreeList, ((s.enter c).savedFrame e tf).sysExofork with
        | some v, .ok (ret, a) => if 0 < ret then [(v, (a.envs v).envId)] else []
        | _, _ => []
  | _ => []

theorem allocs_of_call (h : x.call ≠ some .exofork) : allocs s c x = [] := by
  unfold allocs
  split
  · exact absurd rfl h
  · rfl

/-- Only `sys_exofork` writes an id. -/
theorem envId_of_writes {o : Option ℕ} {u u' : ℕ → Env} (hx : x.call ≠ some .exofork)
    (h : Writes (Write.Legal o x) u u') (e : ℕ) : (u' e).envId = (u e).envId := by
  refine h.invariant (I := fun w => (w e).envId = (u e).envId) rfl fun t w ht hw => ?_
  rcases eq_or_ne e w.slot with rfl | hne
  · rw [Write.apply_slot, ← ht]
    cases w with
    | alloc e d parentId => exact absurd hw.1 hx
    | _ => rfl
  · rw [Write.apply_of_ne hne]
    exact ht

theorem savedFrame_envId (s : Kernel) (e j : ℕ) (tf : Trapframe) :
    ((s.savedFrame e tf).envs j).envId = (s.envs j).envId := (savedFrame_envs s e tf j).2.1

theorem setEax_envId (s : Kernel) (e j : ℕ) (r : ℤ) :
    ((s.setEax e r).envs j).envId = (s.envs j).envId := by
  rcases eq_or_ne j e with rfl | hne
  · simp [setEax, setEnv]
  · simp [setEax, setEnv, hne]

/-- **An entry allocates nothing, or gives the first free slot its next id.** -/
theorem envId_of_entry (hfree : ∀ v, s.envFreeList = some v → v < nenv)
    (hrun : s.entry c x = .ok s') :
    (allocs s c x = [] ∧ ∀ e, (s'.envs e).envId = (s.envs e).envId) ∨
    ∃ v, v < nenv ∧ allocs s c x = [(v, nextEnvId (s.envs v).envId v)] ∧
      (s'.envs v).envId = nextEnvId (s.envs v).envId v ∧
      ∀ e, e ≠ v → (s'.envs e).envId = (s.envs e).envId := by
  by_cases hx : x.call = some .exofork
  · obtain ⟨tf, rfl⟩ := Entry.eq_trap_of_call hx
    have hserve := serving_enter s c
    have hsched : Entry.schedule.call ≠ some .exofork := nofun
    obtain ⟨e, he, ⟨hdy, hw⟩ | ⟨hdy, r, s₁, hz, hw⟩⟩ := wrote_of_returns (fun _ => rfl) hserve hrun
    · have hdy' : (s.envs e).envStatus = .dying := hdy
      refine Or.inl ⟨?_, envId_of_writes hsched hw.writes⟩
      simp [allocs, hserve e he, hdy']
    have hdy' : (s.envs e).envStatus ≠ .dying := hdy
    have hid : ∀ j, (s'.envs j).envId = (s₁.envs j).envId := fun j =>
      (envId_of_writes hsched hw.writes j).trans (setEax_envId s₁ e j r)
    rcases sysExofork_cases hz with ⟨hneg, hm⟩ | ⟨v, d, c', s₂, -, hr, hal, henvs, rfl⟩
    · refine Or.inl ⟨?_, fun j => ?_⟩
      · unfold allocs
        rw [hserve e he]
        simp only [hdy', if_false, hz]
        split
        · rename_i hok
          obtain ⟨rfl, rfl⟩ := Prod.mk.inj (Except.ok.inj hok)
          rw [if_neg (by omega)]
        · rfl
      · rw [hid, hm.envs, savedFrame_envId]
        rfl
    · have hhead : s.envFreeList = some v := hal.head
      have hv := hfree v hhead
      have hold : (((s.enter c).savedFrame e tf).envs v).envId = (s.envs v).envId :=
        savedFrame_envId (s.enter c) e v tf
      rw [hold] at hr
      have hpos := (nextEnvId_pos (s.envs v).envId hv).1
      have hnew : ((s₂.setEnv v ((Write.fork v c').value s₂.envs)).envs v).envId =
          nextEnvId (s.envs v).envId v := by
        rw [← hold]
        simp [Kernel.setEnv, henvs, Write.apply, Write.slot, Write.value]
      refine Or.inr ⟨v, hv, ?_, (hid v).trans hnew, fun j hj => ?_⟩
      · unfold allocs
        rw [hserve e he]
        simp only [hdy', if_false, hz, hhead, hr, hpos, if_true]
        rw [hnew]
      · have hsaved : (((s.enter c).savedFrame e tf).envs j).envId = (s.envs j).envId :=
          savedFrame_envId (s.enter c) e j tf
        rw [hid, ← hsaved]
        simp [Kernel.setEnv, henvs, Write.apply, Write.slot, hj]
  · exact Or.inl ⟨allocs_of_call hx, envId_of_writes hx (wrote_entry hrun).writes⟩

/-- The ids that slot `v` has had, the latest first. -/
def incarnations (v : ℕ) (l : List Incarnation) : List Word :=
  (l.filter fun i => i.1 = v).map Prod.snd

theorem incarnations_cons_self (v : ℕ) (id : Word) (l : List Incarnation) :
    incarnations v ((v, id) :: l) = id :: incarnations v l := by
  simp [incarnations]

theorem incarnations_cons_of_ne {v w : ℕ} (h : w ≠ v) (id : Word) (l : List Incarnation) :
    incarnations v ((w, id) :: l) = incarnations v l := by
  simp [incarnations, h]

/-- The history of slot `v`: its ids are those of its generations, and its present id is
that of the last one. -/
structure Generations (s : Kernel) (l : List Incarnation) (v : ℕ) : Prop where
  id : (s.envs v).envId = laterEnvId 0#32 v (incarnations v l).length
  past : ∀ a < (incarnations v l).length,
    (incarnations v l)[a]? = some (laterEnvId 0#32 v ((incarnations v l).length - a))
  /-- A slot that was never allocated is free. -/
  live : (s.envs v).envStatus ≠ .free → incarnations v l ≠ []

theorem Generations.alloc {l : List Incarnation} (h : Generations s l v)
    (hid : (s'.envs v).envId = nextEnvId (s.envs v).envId v) :
    Generations s' ((v, nextEnvId (s.envs v).envId v) :: l) v := by
  have hnew : nextEnvId (s.envs v).envId v =
      laterEnvId 0#32 v ((incarnations v l).length + 1) := by
    rw [laterEnvId_succ, ← h.id]
  constructor
  · rw [hid, hnew, incarnations_cons_self, List.length_cons]
  · rw [incarnations_cons_self, List.length_cons, hnew]
    intro a ha
    cases a with
    | zero => rfl
    | succ a =>
      rw [List.getElem?_cons_succ, h.past a (by omega)]
      congr 2
      omega
  · intro _
    rw [incarnations_cons_self]
    exact List.cons_ne_nil _ _

theorem Generations.keep {l l' : List Incarnation} (h : Generations s l v)
    (hl : incarnations v l' = incarnations v l) (hid : (s'.envs v).envId = (s.envs v).envId)
    (hst : (s'.envs v).envStatus ≠ .free → (s.envs v).envStatus ≠ .free) :
    Generations s' l' v := by
  refine ⟨?_, ?_, fun h0 => ?_⟩
  · rw [hid, hl]
    exact h.id
  · rw [hl]
    exact h.past
  · rw [hl]
    exact h.live (hst h0)

/-! ## Runs -/

/-- No CPU has an environment. -/
def Idle (s : Kernel) : Prop := ∀ c, (s.cpus c).userMode = false ∧ (s.cpus c).cpuEnv = none

/-- A run on CPU 0, with its allocations.  Until the first environment is started the
kernel creates environments (`env_create`), and does what leaves slots and CPUs alone. -/
inductive TableRun (s₀ : Kernel) : List Incarnation → Kernel → Prop
  | start : TableRun s₀ [] s₀
  /-- `env_alloc` -/
  | create {l : List Incarnation} {s s' : Kernel} {parentId : Word} {e : ℕ} (h : TableRun s₀ l s)
      (hi : Idle s) (halloc : s.envAlloc parentId = .ok (0, some e, s')) :
      TableRun s₀ ((e, (s'.envs e).envId) :: l) s'
  /-- `load_icode`, and an `env_alloc` that fails. -/
  | load {l : List Incarnation} {s s' : Kernel} (h : TableRun s₀ l s) (hi : Idle s)
      (hq : Quiet s s') : TableRun s₀ l s'
  | entry {l : List Incarnation} {s s' : Kernel} {x : Entry} (h : TableRun s₀ l s)
      (hx : CanEnter s 0 x) (hrun : s.entry 0 x = .ok s') : TableRun s₀ (allocs s 0 x ++ l) s'

/-- The other CPUs have not started. -/
def Alone (s : Kernel) : Prop := ∀ c, c ≠ 0 → (s.cpus c).cpuEnv = none

structure TableInv (l : List Incarnation) (s : Kernel) : Prop where
  calm : Calm s
  alone : Alone s
  free : FreeTable s
  generations : ∀ v < nenv, Generations s l v

theorem Idle.passive (h : Idle s) (hp : Passive s s') : Idle s' := by
  intro c
  rcases eq_or_ne c s.cpunum with rfl | hc
  · have hu := hp.userMode
    have he := hp.cpuEnv
    rw [thiscpu, thiscpu, hp.cpunum] at hu
    rw [curenv, curenv, hp.cpunum] at he
    rw [hu, he]
    exact h _
  · rw [hp.other c hc]
    exact h c

/-- A system in which no environment is on a CPU, nor marked so, is calm. -/
theorem Idle.calm (h : Idle s) (hf : FreeSlots s) (hon : ∀ e, ¬ OnCpu s e) : Calm s := by
  refine ⟨hf, fun c hu => ?_, fun _ c _ => (h c).2, fun c c' e he _ => ?_,
    fun e h0 => absurd h0 (hon e)⟩
  · rw [(h c).1] at hu
    cases hu
  · rw [(h c).2] at he
    cases he

theorem Calm.not_onCpu (h : Calm s) (hi : Idle s) (e : ℕ) : ¬ OnCpu s e := by
  intro hon
  obtain ⟨c, hc⟩ := h.busy e hon
  rw [(hi c).2] at hc
  cases hc

/-- Every entry of the only CPU is orderly. -/
theorem Alone.orderly (h : Alone s) (x : Entry) : Orderly s 0 x := by
  have hnone : ∀ e, ¬ Elsewhere s 0 e := by
    rintro e ⟨c, hc, he⟩
    rw [h c hc] at he
    cases he
  cases x with
  | schedule => trivial
  | trap tf t =>
    cases t with
    | syscall y =>
      cases y with
      | envSetStatus envid status => exact fun _ e _ => hnone e
      | ipcTrySend envid value srcva perm stale => exact fun e _ _ => hnone e
      | envDestroy envid => exact fun e _ => Or.inl (hnone e)
      | _ => trivial
    | _ => trivial

theorem FreeTable.entry (h : FreeTable s) (hc : Calm s) (hx : CanEnter s c x)
    (ho : Orderly s c x) (hrun : s.entry c x = .ok s') : FreeTable s' := by
  obtain ⟨n, s₁, hacts, hleave, -⟩ := hc.passage hx ho hrun
  exact (FreeTable.acts (s := s.enter c) h hacts).leave hleave

/-- **A free slot stays as it is, or is allocated.** -/
theorem slot_of_free (hfree : (s.slots v).envStatus = .free) (hc : Calm s) (hx : CanEnter s c x)
    (ho : Orderly s c x) (hrun : s.entry c x = .ok s') :
    s'.slots v = s.slots v ∨ (s'.slots v).envId = nextEnvId (s.slots v).envId v := by
  have hgone : Gone (s.enter c) v (s.slots v).envId := ⟨rfl, Or.inl hfree⟩
  rcases hc.entry_cases hx ho hrun with ⟨e, s₁, -, hdy, -, hfreed, hleave⟩ |
    ⟨-, n, hn, s₁, hacts, hleave⟩
  · have hne : v ≠ e := by
      rintro rfl
      rw [hfree] at hdy
      cases hdy
    have hs : (s₁.setCurenv none).slots v = s.slots v := by
      show s₁.slots v = s.slots v
      rw [hfreed.slots, Function.update_of_ne hne]
      rfl
    exact Or.inl (((hgone.of_slot_eq hs).leave_slot hleave).trans hs)
  · have hvital : ((s.enter c).slots v).envStatus = .dying → ¬ ¬ Elsewhere s c v := by
      intro hdy
      have hfree' : ((s.enter c).slots v).envStatus = .free := hfree
      rw [hfree'] at hdy
      cases hdy
    rcases hgone.acts hacts hn hvital with hs | ⟨-, hid⟩
    · exact Or.inl (((hgone.of_slot_eq hs).leave_slot hleave).trans hs)
    · exact Or.inr ((hleave.envId v).trans hid)

theorem nextEnvId_ne (old : Word) (he : e < nenv) : nextEnvId old e ≠ old := by
  intro heq
  have h := toNat_nextEnvId old he
  rw [heq] at h
  rw [nenv] at he
  have hlt := old.isLt
  split at h <;> omega

/-! ## The invariant -/

theorem TableInv.create {l : List Incarnation} {parentId : Word} (h : TableInv l s) (hi : Idle s)
    (halloc : s.envAlloc parentId = .ok (0, some e, s')) :
    TableInv ((e, (s'.envs e).envId) :: l) s' := by
  rcases envAlloc_cases halloc with ⟨hneg, -⟩ | ⟨e', -, heq, hal⟩
  · exact absurd hneg (by decide)
  obtain rfl : e = e' := Option.some.inj heq
  have he := h.free.head hal.head
  have hidle := hi.passive hal.passive
  have hact : Act (fun _ => True) 1 s s' := .alloc (Or.inl rfl) hal
  have hfree := h.free.act hact
  obtain ⟨d, hs⟩ := hal.slots
  have hid : (s'.envs e).envId = nextEnvId (s.envs e).envId e := by
    show (s'.slots e).envId = _
    rw [hs, Function.update_self]
    rfl
  refine ⟨?_, fun c _ => (hidle c).2, hfree, fun v hv => ?_⟩
  · exact hidle.calm hfree.freeSlots fun j hon => h.calm.not_onCpu hi j (hact.onCpu_of hon)
  · rcases eq_or_ne v e with rfl | hne
    · rw [hid]
      exact (h.generations v hv).alloc hid
    · have hslot : s'.slots v = s.slots v := by
        rw [hs, Function.update_of_ne hne]
      refine (h.generations v hv).keep (incarnations_cons_of_ne hne.symm _ l) ?_ fun hst => ?_
      · exact congrArg Slot.envId hslot
      · have hst' : (s'.slots v).envStatus ≠ .free := hst
        rw [hslot] at hst'
        exact hst'

theorem TableInv.load {l : List Incarnation} (h : TableInv l s) (hi : Idle s) (hq : Quiet s s') :
    TableInv l s' := by
  have hidle := hi.passive hq.passive
  have hact : Act (fun _ => True) 0 s s' := .quiet hq
  have hfree := h.free.act hact
  have hslot : ∀ v, s'.slots v = s.slots v := fun v => by rw [hq.slots]
  refine ⟨?_, fun c _ => (hidle c).2, hfree, fun v hv => ?_⟩
  · exact hidle.calm hfree.freeSlots fun j hon => h.calm.not_onCpu hi j (hact.onCpu_of hon)
  · refine (h.generations v hv).keep rfl (congrArg Slot.envId (hslot v)) fun hst => ?_
    have hst' : (s'.slots v).envStatus ≠ .free := hst
    rw [hslot] at hst'
    exact hst'

theorem TableInv.entry {l : List Incarnation} (h : TableInv l s) (hx : CanEnter s 0 x)
    (hrun : s.entry 0 x = .ok s') : TableInv (allocs s 0 x ++ l) s' := by
  have ho := h.alone.orderly x
  -- a slot that keeps its id was not allocated
  have hlive : ∀ v < nenv, (s'.envs v).envId = (s.envs v).envId →
      (s'.envs v).envStatus ≠ .free → (s.envs v).envStatus ≠ .free := by
    intro v hv hid hst hfree
    rcases slot_of_free hfree h.calm hx ho hrun with hs | hnext
    · exact hst ((congrArg Slot.envStatus hs).trans hfree)
    · exact nextEnvId_ne _ hv (hnext.symm.trans hid)
  refine ⟨h.calm.entry hx ho hrun, fun c hc => ?_, h.free.entry h.calm hx ho hrun, ?_⟩
  · rw [h.calm.entry_other hx ho hrun hc]
    exact h.alone c hc
  · intro v hv
    rcases envId_of_entry (fun v => h.free.head) hrun with ⟨hnil, hid⟩ | ⟨w, hw, hone, hnew, hid⟩
    · rw [hnil]
      exact (h.generations v hv).keep rfl (hid v) (hlive v hv (hid v))
    · rw [hone, List.singleton_append]
      rcases eq_or_ne v w with rfl | hne
      · exact (h.generations v hv).alloc hnew
      · exact (h.generations v hv).keep (incarnations_cons_of_ne hne.symm _ l) (hid v hne)
          (hlive v hv (hid v hne))

/-- The memory of `envs` is zeroed, and no CPU has an environment. -/
structure Blank (s : Kernel) : Prop where
  free : ∀ e, (s.envs e).envStatus = .free
  idle : Idle s

theorem Blank.tableInv (h : Blank s) : TableInv [] s.envInit := by
  obtain ⟨htable, hfree, hid, hcpus⟩ := envInit_table h.free
  generalize s.envInit = t at htable hfree hid hcpus ⊢
  have hidle : Idle t := by
    intro c
    rw [hcpus]
    exact h.idle c
  have hon : ∀ e, ¬ OnCpu t e := fun e => not_onCpu_of_free (hfree e)
  refine ⟨hidle.calm htable.freeSlots hon, fun c _ => (hidle c).2, htable, fun v hv => ?_⟩
  refine ⟨hid v hv, fun a ha => absurd ha (Nat.not_lt_zero a), ?_⟩
  rw [hfree v]
  exact fun h1 => absurd rfl h1

/-- **The invariant holds in every state of a run.** -/
theorem TableRun.inv {l : List Incarnation} (h0 : Blank s₀) (h : TableRun s₀.envInit l s) :
    TableInv l s := by
  induction h with
  | start => exact h0.tableInv
  | create _ hi halloc ih => exact ih.create hi halloc
  | load _ hi hq ih => exact ih.load hi hq
  | entry _ hx hrun ih => exact ih.entry hx hrun

/-! ## What it says -/

/-- The history of a slot, from its generations. -/
theorem Generations.incarnation {l : List Incarnation} {a : ℕ} {id : Word} (h : Generations s l v)
    (ha : (incarnations v l)[a]? = some id) :
    a < (incarnations v l).length ∧ id = laterEnvId 0#32 v ((incarnations v l).length - a) := by
  have hlt : a < (incarnations v l).length := by
    by_contra h0
    rw [List.getElem?_eq_none (Nat.le_of_not_lt h0)] at ha
    cases ha
  rw [h.past a hlt] at ha
  exact ⟨hlt, (Option.some.inj ha).symm⟩

theorem laterEnvId_pos (hv : v < nenv) {k : ℕ} (hk : 0 < k) :
    0 < (laterEnvId 0#32 v k).toInt ∧ (laterEnvId 0#32 v k).toNat % 1024 = v := by
  obtain ⟨j, rfl⟩ : ∃ j, k = j + 1 := ⟨k - 1, by omega⟩
  rw [laterEnvId_succ]
  exact nextEnvId_pos _ hv

/-- Generations that are less than `2 ^ 19 - 1` apart have different ids. -/
theorem laterEnvId_inj {k m : ℕ} (hv : v < nenv) (hk : 0 < k) (hm : 0 < m)
    (hlt : k + m < 2 ^ 19 - 1 + k) : laterEnvId 0#32 v (m + k) ≠ laterEnvId 0#32 v k := by
  have hsplit : laterEnvId 0#32 v (m + k) = laterEnvId (laterEnvId 0#32 v k) v m :=
    Function.iterate_add_apply _ m k _
  rw [hsplit]
  exact laterEnvId_ne hv (laterEnvId_pos hv hk).2 hm (by omega)

/-- **The table of environments is sound**, after the allocations `l`. -/
structure TableSound (l : List Incarnation) (s : Kernel) : Prop where
  /-- A slot is on `env_free_list` once if it is free, and else not at all. -/
  freeList : ∃ f, Threads (fun e => (s.envs e).envLink) s.envFreeList f ∧
    ∀ e, f.count e = if e < nenv ∧ (s.envs e).envStatus = .free then 1 else 0
  id : ∀ e, (s.envs e).envStatus ≠ .free → 0 < (s.envs e).envId.toInt ∧ envx (s.envs e).envId = e
  distinct : ∀ e e', (s.envs e).envStatus ≠ .free → (s.envs e').envStatus ≠ .free →
    (s.envs e).envId = (s.envs e').envId → e = e'
  /-- The id of a live environment is that of the last incarnation of its slot. -/
  current : ∀ e, (s.envs e).envStatus ≠ .free → (incarnations e l)[0]? = some (s.envs e).envId
  generations : ∀ v < nenv, ∀ a b ida idb, (incarnations v l)[a]? = some ida →
    (incarnations v l)[b]? = some idb → a < b → b - a < 2 ^ 19 - 1 → ida ≠ idb
  /-- A past incarnation, or the last one when the slot is free, is not found. -/
  stale : ∀ v < nenv, ∀ a id, (incarnations v l)[a]? = some id →
    (a ≠ 0 ∨ (s.envs v).envStatus = .free) → a < 2 ^ 19 - 1 →
    ∀ checkperm, s.envid2env id checkperm = .ok (-eBadEnv, none)

theorem TableInv.freeList {l : List Incarnation} (h : TableInv l s) :
    ∃ f, Threads (fun e => (s.envs e).envLink) s.envFreeList f ∧
      ∀ e, f.count e = if e < nenv ∧ (s.envs e).envStatus = .free then 1 else 0 := by
  obtain ⟨-, f, ht, hf⟩ := h.free
  refine ⟨f, ht, fun e => ?_⟩
  split
  · rename_i hst
    exact List.count_eq_one_of_mem ht.nodup ((hf e).mpr hst)
  · rename_i hst
    exact List.count_eq_zero_of_not_mem fun hmem => hst ((hf e).mp hmem)

theorem TableInv.live {l : List Incarnation} (h : TableInv l s)
    (hlive : (s.envs e).envStatus ≠ .free) :
    e < nenv ∧ 0 < (incarnations e l).length := by
  have he := h.free.lt hlive
  exact ⟨he, List.length_pos_iff.mpr ((h.generations e he).live hlive)⟩

theorem TableInv.id {l : List Incarnation} (h : TableInv l s)
    (hlive : (s.envs e).envStatus ≠ .free) :
    0 < (s.envs e).envId.toInt ∧ envx (s.envs e).envId = e := by
  obtain ⟨he, hlen⟩ := h.live hlive
  rw [(h.generations e he).id]
  obtain ⟨hpos, hmod⟩ := laterEnvId_pos he hlen
  exact ⟨hpos, envx_of_mod hmod⟩

theorem TableInv.stale {l : List Incarnation} (h : TableInv l s) (hv : v < nenv) {a : ℕ} {id : Word}
    (ha : (incarnations v l)[a]? = some id) (hold : a ≠ 0 ∨ (s.envs v).envStatus = .free)
    (hlt : a < 2 ^ 19 - 1) (checkperm : Bool) :
    s.envid2env id checkperm = .ok (-eBadEnv, none) := by
  have hg := h.generations v hv
  obtain ⟨halen, rfl⟩ := hg.incarnation ha
  obtain ⟨hpos, hmod⟩ := laterEnvId_pos hv (by omega : 0 < (incarnations v l).length - a)
  have hne : laterEnvId 0#32 v ((incarnations v l).length - a) ≠ 0#32 := by
    intro h0
    rw [h0] at hpos
    exact absurd hpos (by decide)
  have hbad : (s.envs v).envStatus = .free ∨
      (s.envs v).envId ≠ laterEnvId 0#32 v ((incarnations v l).length - a) := by
    rcases hold with ha0 | hfree
    · have hdiff := laterEnvId_inj hv (by omega : 0 < (incarnations v l).length - a)
        (by omega : 0 < a) (by omega)
      rw [show a + ((incarnations v l).length - a) = (incarnations v l).length by omega] at hdiff
      rw [hg.id]
      exact Or.inr hdiff
    · exact Or.inl hfree
  unfold envid2env
  rw [if_neg hne]
  simp only [envx_of_mod hmod]
  rw [if_pos hbad]
  rfl

theorem TableInv.sound {l : List Incarnation} (h : TableInv l s) : TableSound l s where
  freeList := h.freeList
  id := fun e hlive => h.id hlive
  distinct := fun e e' hlive hlive' heq => by
    rw [← (h.id hlive).2, ← (h.id hlive').2, heq]
  current := fun e hlive => by
    obtain ⟨he, hlen⟩ := h.live hlive
    have hg := h.generations e he
    rw [hg.past 0 hlen, hg.id]
    rfl
  generations := fun v hv a b ida idb ha hb hab hlt => by
    have hg := h.generations v hv
    obtain ⟨hal, rfl⟩ := hg.incarnation ha
    obtain ⟨hbl, rfl⟩ := hg.incarnation hb
    have hne := laterEnvId_inj hv (by omega : 0 < (incarnations v l).length - b)
      (by omega : 0 < b - a) (by omega)
    rw [show b - a + ((incarnations v l).length - b) = (incarnations v l).length - a by omega]
      at hne
    exact hne
  stale := fun v hv a id ha hold hlt checkperm => h.stale hv ha hold hlt checkperm

/-- **The table of environments is sound in every state of a run on one CPU.** -/
theorem tableSound_of_run {l : List Incarnation} (h0 : Blank s₀)
    (hrun : TableRun s₀.envInit l s) : TableSound l s :=
  (TableRun.inv h0 hrun).sound

/-- The memory of `oneEnv`, before the table is set up. -/
def noEnv : Kernel :=
  { oneEnv with
    envs := fun e => { oneEnv.envs e with
      envLink := none
      envId := 0#32
      envStatus := .free
      envPgdir := none }
    envFreeList := none }

theorem noEnv_blank : Blank noEnv := ⟨fun _ => rfl, fun _ => ⟨rfl, rfl⟩⟩

/-- The first environment. -/
def created : Kernel :=
  match noEnv.envInit.envAlloc 0#32 with
  | .ok (_, _, s) => s
  | .error _ => noEnv

/-- It runs and forks a child. -/
def forkedOnce : Kernel := (created.after 0 .schedule).after 0 (sysEntry .exofork)

theorem created_eq : noEnv.envInit.envAlloc 0#32 = .ok (0, some 0, created) := by
  have hfree : noEnv.envInit.envFreeList = some 0 := by rw [envInit_eq]
  have hok : (noEnv.envInit.envAlloc 0#32).isOk = true := by
    rewrite [envInit_eq]
    decide +kernel
  unfold created
  cases h : noEnv.envInit.envAlloc 0#32 with
  | error p =>
    rw [h] at hok
    cases hok
  | ok q =>
    obtain ⟨r, o, t⟩ := q
    have hr : (match noEnv.envInit.envAlloc 0#32 with
      | .ok (r, _, _) => r
      | .error _ => -1) = 0 := by
      rewrite [envInit_eq]
      decide +kernel
    rw [h] at hr
    obtain rfl : r = 0 := hr
    rcases envAlloc_cases h with ⟨hneg, -⟩ | ⟨e, -, rfl, hal⟩
    · exact absurd hneg (by decide)
    · rw [hal.head] at hfree
      rw [hfree]

theorem TableRun.after {l : List Incarnation} (h : TableRun s₀ l s) (hx : CanEnter s 0 x)
    (hok : (s.entry 0 x).isOk = true) :
    TableRun s₀ (allocs s 0 x ++ l) (s.after 0 x) :=
  h.entry hx (entry_eq_ok_after hok)

theorem forkedOnce_run :
    TableRun noEnv.envInit [(1, 0x1001#32), (0, 0x1000#32)] forkedOnce := by
  have hidle : Idle noEnv.envInit := by
    intro c
    rw [(envInit_table noEnv_blank.free).2.2.2]
    exact noEnv_blank.idle c
  have h1 : TableRun noEnv.envInit [(0, (created.envs 0).envId)] created :=
    .create .start hidle created_eq
  -- the table is put in its closed form before the rest is evaluated
  have henter : CanEnter created 0 .schedule ∧ (created.entry 0 .schedule).isOk = true := by
    unfold created
    rewrite [envInit_eq]
    decide +kernel
  have hfork : CanEnter (created.after 0 .schedule) 0 (sysEntry .exofork) ∧
      ((created.after 0 .schedule).entry 0 (sysEntry .exofork)).isOk = true := by
    unfold created
    rewrite [envInit_eq]
    decide +kernel
  have hids : (created.envs 0).envId = 0x1000#32 ∧
      allocs (created.after 0 .schedule) 0 (sysEntry .exofork) = [(1, 0x1001#32)] := by
    unfold created
    rewrite [envInit_eq]
    decide +kernel
  have h2 := h1.after henter.1 henter.2
  have h3 := h2.after hfork.1 hfork.2
  have hnone : allocs created 0 .schedule = [] := rfl
  rw [hids.1, hnone, hids.2] at h3
  exact h3

/-- The theorem when the child of the first environment is destroyed. -/
theorem tableSound_of_run_forkedOnce : Blank noEnv ∧
    ∃ s, TableRun noEnv.envInit [(1, 0x1001#32), (0, 0x1000#32)] s ∧
      (s.envs 0).envStatus = .running ∧ (s.envs 1).envStatus = .free ∧
      TableSound [(1, 0x1001#32), (0, 0x1000#32)] s := by
  have henter : CanEnter forkedOnce 0 (sysEntry (.envDestroy 0x1001#32)) ∧
      (forkedOnce.entry 0 (sysEntry (.envDestroy 0x1001#32))).isOk = true := by
    unfold forkedOnce created
    rewrite [envInit_eq]
    decide +kernel
  have hstatus : ((forkedOnce.after 0 (sysEntry (.envDestroy 0x1001#32))).envs 0).envStatus =
      .running ∧
      ((forkedOnce.after 0 (sysEntry (.envDestroy 0x1001#32))).envs 1).envStatus = .free := by
    unfold forkedOnce created
    rewrite [envInit_eq]
    decide +kernel
  have hrun : TableRun noEnv.envInit [(1, 0x1001#32), (0, 0x1000#32)]
      (forkedOnce.after 0 (sysEntry (.envDestroy 0x1001#32))) :=
    forkedOnce_run.after henter.1 henter.2
  exact ⟨noEnv_blank, _, hrun, hstatus.1, hstatus.2, tableSound_of_run noEnv_blank hrun⟩

end Kernel
end PmakeOs
