import PmakeOs.Machine.Bytes
import PmakeOs.Lib.Loop
import PmakeOs.Trap.UserMemory
import PmakeOs.Calls.Authority
import PmakeOs.Paging.Refinement

/-!
# What `page_fault_handler` does to memory

For an environment with an upcall, `page_fault_handler` checks that the fifty-six bytes
below the stack top it has chosen may be written by the environment, and destroys the
environment if not.  Else it stores a `struct UTrapframe` there, through the directory that
is loaded, and resumes the environment at its upcall.

* `pokeWords_eq` --- the store is `putBytes`, since it only reaches data frames and so moves
  no translation on its way;
* `destroyed_or_admitted` --- the two outcomes of the check, and `Branched s s' c d faultVa`,
  the state after the store, which an admitted fault leads to (`Admitted.branched`);
* `Branched.spaces` --- the address spaces stay well formed.
-/

namespace PmakeOs

open Lib

namespace Kernel

variable {s s' : Kernel} {ρ : ℕ → Role} {c d : ℕ} {va faultVa : Word} {m' : Phys} {ws : List Word}

/-- User mode may write the page of `va`. -/
def UserWritable (m : Phys) (d : ℕ) (va : Word) : Prop :=
  pgnum va < upn ∧ ∃ t, mmuWalk m d (pgnum va) = some t ∧ t.user = true ∧ t.write = true

/-- Byte `k` of a structure, given by its words. -/
def bytesOf (ws : List Word) (k : ℕ) : BitVec 8 := byte (ws.getD (k / 4) 0#32) (k % 4)

/-! ## Stores into data frames -/

/-- The translations are read from frames that hold no data. -/
theorem Spaces.mmuWalk_eq (hs : Spaces s ρ) (hd : dirsOf s c = some d)
    (hm : ∀ f, ρ f ≠ .data → m' f = s.phys f) {vpn : ℕ} (hv : vpn < upn) :
    mmuWalk m' d vpn = mmuWalk s.phys d vpn := by
  have hdir : m' d = s.phys d := hm d (by rw [hs.typed.tree.dir.mp hd]; exact nofun)
  by_cases hp : Has (s.phys d (vpn / nptentries)) pteP
  · have htab := hs.typed.tree.table hd (index_lt hv) hp
    exact mmuWalk_congr (by rw [hdir]) (by rw [hm _ (by rw [htab]; exact nofun)])
  · unfold mmuWalk
    simp only [hdir, hp, false_and, if_false]

/-- A page below `UTOP` is a data frame. -/
theorem Spaces.role_of_walk (hs : Spaces s ρ) (hd : dirsOf s c = some d) {vpn : ℕ}
    (hv : vpn < upn) {t : Translation} (h : mmuWalk s.phys d vpn = some t) : ρ t.ppn = .data := by
  rw [Kernel.mmuWalk_eq] at h
  obtain ⟨w, hw, rfl⟩ := Option.map_eq_some_iff.mp h
  have hentry : entryOf s.phys (dirsOf s) (c, vpn) = some w := by
    simp [entryOf, hv, hd, hw]
  exact hs.typed.tree.role_of_entryOf hentry

theorem has_of_and_eq {w perm f : Word} (h : w &&& perm = perm) (hf : perm &&& f = f)
    (hne : f ≠ 0#32) : Has w f := by
  unfold Has
  rw [← hf, ← BitVec.and_assoc, h, hf]
  exact hne

/-- What `user_mem_check` grants, user mode may write. -/
theorem Spaces.userWritable_of_granted (hs : Spaces s ρ) (hd : dirsOf s c = some d)
    (hv : pgnum va < upn) (h : Granted s d (pteU ||| pteW) (pgnum va)) :
    UserWritable s.phys d va := by
  obtain ⟨-, w, hw, hperm⟩ := h
  have hp := pde_of_userPte hw
  have hwide := hs.wide c d _ hd (index_lt hv) hp
  have hbits : Has w pteU ∧ Has w pteW :=
    ⟨has_of_and_eq hperm (by decide) (by decide), has_of_and_eq hperm (by decide) (by decide)⟩
  refine ⟨hv, _, by rw [Kernel.mmuWalk_eq, hw]; rfl, ?_, ?_⟩
  · exact decide_eq_true ⟨hwide.1, hbits.1⟩
  · exact decide_eq_true ⟨hwide.2, hbits.2⟩

theorem granted_of_userWritable (h : UserWritable s.phys d va) :
    Granted s d (pteU ||| pteW ||| pteU) (pgnum va) := by
  obtain ⟨hlow, t, ht, hu, hwr⟩ := h
  rw [Kernel.mmuWalk_eq] at ht
  obtain ⟨w, hw, rfl⟩ := Option.map_eq_some_iff.mp ht
  have hU : w &&& pteU = pteU := and_twoPow_of_ne_zero (i := 2) (of_decide_eq_true hu).2
  have hW : w &&& pteW = pteW := and_twoPow_of_ne_zero (i := 1) (of_decide_eq_true hwr).2
  refine ⟨hlow.trans_le (by decide), w, hw, ?_⟩
  rw [BitVec.and_or_distrib_left, BitVec.and_or_distrib_left, hU, hW]

theorem pokeByte_eq {t : Translation} (h : mmuWalk s.phys s.thiscpu.cr3 (pgnum va) = some t)
    (hw : t.write = true) (b : BitVec 8) :
    s.pokeByte va b = .ok { s with phys := putByte s.phys (t.ppn, va.toNat % pgsize) b } := by
  unfold pokeByte
  rw [h]
  exact if_pos hw

/-- The bytes of a store that the environment may make are all in data frames. -/
theorem Spaces.putBytes_frame (hs : Spaces s ρ) (hd : dirsOf s c = some d) {n : ℕ}
    (hw : ∀ k < n, UserWritable s.phys d (va + BitVec.ofNat 32 k)) (b : ℕ → BitVec 8) {f : ℕ}
    (hf : ρ f ≠ .data) : putBytes s.phys d va n b f = s.phys f := by
  refine PmakeOs.putBytes_frame fun k hk o hplace => hf ?_
  obtain ⟨hlow, t, ht, -⟩ := hw k hk
  rw [place_of_walk ht] at hplace
  obtain ⟨rfl, -⟩ := Prod.mk.inj (Option.some.inj hplace)
  exact hs.role_of_walk hd hlow ht

/-- The address spaces do not depend on the contents of data frames. -/
theorem Spaces.withPhys (hs : Spaces s ρ) (hm : ∀ f, ρ f ≠ .data → m' f = s.phys f) :
    Spaces { s with phys := m' } ρ := by
  constructor
  · apply hs.typed.writeFrames
    · rfl
    · rfl
    · rfl
    intro f hnode k
    refine congrFun (hm f ?_) k
    intro h0
    rw [h0] at hnode
    exact hnode
  · intro e d i hd hi hp
    have hrole : ρ d ≠ .data := by
      rw [hs.typed.tree.dir.mp hd]
      exact nofun
    have hword : m' d i = s.phys d i := congrFun (hm d hrole) i
    show Has (m' d i) pteU ∧ Has (m' d i) pteW
    rw [hword]
    exact hs.wide e d i hd hi (by rw [← hword]; exact hp)

section Store

variable {n : ℕ} {b : ℕ → BitVec 8}

/-- A store that the environment may make leaves the translations alone. -/
theorem Spaces.walk_putBytes (hs : Spaces s ρ) (hd : dirsOf s c = some d)
    (hw : ∀ k < n, UserWritable s.phys d (va + BitVec.ofNat 32 k)) {vpn : ℕ} (hv : vpn < upn) :
    mmuWalk (putBytes s.phys d va n b) d vpn = mmuWalk s.phys d vpn :=
  hs.mmuWalk_eq hd (fun _ hf => hs.putBytes_frame hd hw b hf) hv

theorem Spaces.place_putBytes (hs : Spaces s ρ) (hd : dirsOf s c = some d)
    (hw : ∀ k < n, UserWritable s.phys d (va + BitVec.ofNat 32 k)) {a : Word}
    (hv : pgnum a < upn) : place (putBytes s.phys d va n b) d a = place s.phys d a := by
  unfold place
  rw [hs.walk_putBytes hd hw hv]

/-- The bytes that were stored. -/
theorem Spaces.byteAt_putBytes (hs : Spaces s ρ) (hd : dirsOf s c = some d)
    (hw : ∀ k < n, UserWritable s.phys d (va + BitVec.ofNat 32 k)) (hn : n ≤ pgsize) {k : ℕ}
    (hk : k < n) :
    byteAt (putBytes s.phys d va n b) d (va + BitVec.ofNat 32 k) = some (b k) := by
  obtain ⟨hlow, t, ht, -⟩ := hw k hk
  have hplace := place_of_walk ht
  rw [byteAt_of_place ((hs.place_putBytes hd hw hlow).trans hplace),
    physByte_putBytes_of_place hn hk hplace]

/-- A byte whose place is not that of a byte that was stored. -/
theorem Spaces.byteAt_putBytes_of_ne (hs : Spaces s ρ) (hd : dirsOf s c = some d)
    (hw : ∀ k < n, UserWritable s.phys d (va + BitVec.ofNat 32 k)) {a : Word} (hv : pgnum a < upn)
    (hne : ∀ k < n, place s.phys d (va + BitVec.ofNat 32 k) ≠ place s.phys d a) :
    byteAt (putBytes s.phys d va n b) d a = byteAt s.phys d a := by
  unfold byteAt
  rw [hs.place_putBytes hd hw hv]
  cases hp : place s.phys d a with
  | none => rfl
  | some x =>
    rw [Option.map_some, Option.map_some]
    refine congrArg some (physByte_putBytes_of_ne fun k hk hx => hne k hk ?_)
    rw [hx, hp]

end Store

/-- **A store by the kernel into memory that the environment may write.** -/
theorem Spaces.pokeWords_eq (hs : Spaces s ρ) (ws : List Word) (hd : dirsOf s c = some d)
    (hcr : s.thiscpu.cr3 = d)
    (hw : ∀ k < 4 * ws.length, UserWritable s.phys d (va + BitVec.ofNat 32 k)) :
    s.pokeWords va ws =
      .ok { s with phys := putBytes s.phys d va (4 * ws.length) (bytesOf ws) } := by
  obtain ⟨s', hok, rfl⟩ := foldlM_range_ok (f := fun s k => pokeByte s (va + BitVec.ofNat 32 k)
      ((ws.getD (k / 4) 0#32).extractLsb' (8 * (k % 4)) 8))
    (I := fun k b => b = { s with phys := putBytes s.phys d va k (bytesOf ws) })
    (n := 4 * ws.length) (a := s) rfl fun k hk b hb => by
      obtain ⟨hlow, t, ht, -, hwrite⟩ := hw k hk
      refine ⟨_, ?_, rfl⟩
      have hwalk : mmuWalk b.phys b.thiscpu.cr3 (pgnum (va + BitVec.ofNat 32 k)) = some t := by
        subst hb
        rw [← ht, ← hcr]
        subst hcr
        exact hs.walk_putBytes hd (fun j hj => hw j (hj.trans hk)) hlow
      rw [pokeByte_eq hwalk hwrite, putBytes_succ, place_of_walk ht, hb]
      rfl
  exact hok

/-! ## The handler -/

/-- The environment has been redirected to its upcall, with a frame on its stack. -/
structure Branched (s s' : Kernel) (c d : ℕ) (faultVa : Word) : Prop where
  phys : s'.phys = putBytes s.phys d (utrapframeAddr (s.envs c).envTf.tfEsp) 52
    (bytesOf (utrapframe faultVa (s.envs c).envTf))
  envTf : (s'.envs c).envTf = { (s.envs c).envTf with
    tfEip := (s.envs c).envPgfaultUpcall
    tfEsp := utrapframeAddr (s.envs c).envTf.tfEsp }
  upcall : (s'.envs c).envPgfaultUpcall = (s.envs c).envPgfaultUpcall
  slots : SameSlots s s'
  npages : s'.npages = s.npages
  pages : s'.pages = s.pages
  pageFreeList : s'.pageFreeList = s.pageFreeList
  kernPgdir : s'.kernPgdir = s.kernPgdir
  curenv : s'.curenv = some c
  cr3 : s'.thiscpu.cr3 = d
  /-- The environment may write every byte below the stack top. -/
  writable : ∀ k < 56,
    UserWritable s.phys d (utrapframeAddr (s.envs c).envTf.tfEsp + BitVec.ofNat 32 k)

/-- The kernel is in `page_fault_handler` for a fault that `c` took in user mode. -/
structure Faulting (s : Kernel) (c d : ℕ) : Prop where
  curenv : s.curenv = some c
  dir : dirsOf s c = some d
  cr3 : s.thiscpu.cr3 = d
  user : (s.envs c).envTf.tfCs &&& 3#16 ≠ 0#16
  upcall : (s.envs c).envPgfaultUpcall ≠ 0#32

/-- `user_mem_assert` does not let the fault pass, and `page_fault_handler` ends in
`env_destroy(curenv)`. -/
def Destroyed (s : Kernel) (c : ℕ) (faultVa : Word) : Prop :=
  ∃ x, s.userMemCheck c (utrapframeAddr (s.envs c).envTf.tfEsp) 56#32 (pteU ||| pteW ||| pteU) =
      .ok (-eFault, { s with userMemCheckAddr := x }) ∧
    s.pageFaultHandler faultVa = ({ s with userMemCheckAddr := x } : Kernel).envDestroy c

/-- The stack top that is chosen lies above the first page of the exception stack and not
above its end. -/
theorem utrapframeAddr_eq (esp : Word) :
    ∃ top : Word, utrapframeAddr esp = top - 56#32 ∧ (top = esp ∨ top = uxstacktop) ∧
      uxstacktop.toNat - pgsize < top.toNat ∧ top.toNat ≤ uxstacktop.toNat := by
  have hbase : (uxstacktop - BitVec.ofNat 32 pgsize).toNat = uxstacktop.toNat - pgsize := by decide
  unfold utrapframeAddr
  dsimp only
  split
  · rename_i h
    rw [BitVec.lt_def, BitVec.lt_def, hbase] at h
    exact ⟨esp, rfl, Or.inl rfl, h.1, h.2.le⟩
  · exact ⟨uxstacktop, rfl, Or.inr rfl, by decide, le_rfl⟩

/-- The bytes below the stack top, in order. -/
theorem toNat_frame_add {top : Word} (h : uxstacktop.toNat - pgsize < top.toNat) {k : ℕ}
    (hk : k < 56) : (top - 56#32 + BitVec.ofNat 32 k).toNat = top.toNat - 56 + k := by
  have hux : uxstacktop.toNat = 955 * 2 ^ 22 := toNat_utop
  have htop := top.isLt
  rw [hux, pgsize] at h
  rw [BitVec.toNat_add, BitVec.toNat_sub, BitVec.toNat_ofNat, BitVec.toNat_ofNat]
  omega

theorem toNat_utrapframeAddr {esp top : Word} (heq : utrapframeAddr esp = top - 56#32)
    (hlo : uxstacktop.toNat - pgsize < top.toNat) :
    (utrapframeAddr esp).toNat = top.toNat - 56 := by
  have h0 := toNat_frame_add hlo (k := 0) (by decide)
  rwa [BitVec.add_zero, ← heq, Nat.add_zero] at h0

theorem pgnum_frame_lt (esp : Word) {k : ℕ} (hk : k < 56) :
    pgnum (utrapframeAddr esp + BitVec.ofNat 32 k) < upn := by
  obtain ⟨top, heq, -, hlo, hhi⟩ := utrapframeAddr_eq esp
  have hux : uxstacktop.toNat = 955 * 2 ^ 22 := toNat_utop
  rw [pgnum_eq, heq, toNat_frame_add hlo hk, upn_eq]
  rw [hux, pgsize] at hlo
  omega

/-- The tables of an environment are in the kernel's window. -/
theorem Spaces.inWindow (hs : Spaces s ρ) (hd : dirsOf s c = some d) {vpn : ℕ} (hv : vpn < upn) :
    InWindow s d vpn := by
  intro hp
  have htab := hs.typed.tree.table hd (index_lt hv) hp
  have hlt := hs.typed.lt (p := frame (s.phys d (vpn / nptentries))) (by rw [htab]; exact nofun)
  exact ⟨hlt, hlt.trans_le hs.typed.window⟩

/-- The pages of the range that is checked are those of its bytes. -/
theorem exists_byte_of_pagesOf {k : ℕ} (esp : Word)
    (hk : pagesOf (utrapframeAddr esp) 56#32 k) :
    ∃ j < 56, pgnum (utrapframeAddr esp + BitVec.ofNat 32 j) = k := by
  obtain ⟨top, heq, -, hlo, hhi⟩ := utrapframeAddr_eq esp
  have hadd : ∀ j < 56, pgnum (utrapframeAddr esp + BitVec.ofNat 32 j) =
      (top.toNat - 56 + j) / 2 ^ 12 := fun j hj => by
    rw [pgnum_eq, heq, toNat_frame_add hlo hj]
  have h0 := toNat_utrapframeAddr heq hlo
  have h56 : (56#32 : Word).toNat = 56 := by decide
  unfold pagesOf at hk
  rw [h0, h56] at hk
  -- the range meets at most two pages: those of its first and of its last byte
  by_cases hfirst : k = (top.toNat - 56) / 4096
  · exact ⟨0, by decide, by rw [hadd 0 (by decide)]; omega⟩
  · exact ⟨55, by decide, by rw [hadd 55 (by decide)]; omega⟩

/-- The executing CPU has entered environment `c` once more. -/
def entered (t : Kernel) (c d : ℕ) : Kernel :=
  { t with
    envs := Function.update t.envs c { t.envs c with
      envStatus := .running
      envRuns := (t.envs c).envRuns + 1
      envCpunum := t.cpunum }
    cpus := Function.update t.cpus t.cpunum { t.thiscpu with
      cpuEnv := some c
      cr3 := d
      tlb := []
      userMode := true }
    kernelLock := none }

/-- `env_run` of the current environment. -/
theorem envRun_curenv {t : Kernel} (hc : t.curenv = some c)
    (hd : (t.envs c).envPgdir = some d) :
    t.envRun c = .ok (t.entered c d) := by
  unfold envRun entered
  by_cases hrun : (t.envs c).envStatus = .running
  · simp only [hc, hrun, if_true]
    simp [setStatus, Kernel.setEnv, setCurenv, setCpu, lcr3, unlockKernel, thiscpu, hd]
    rfl
  · simp only [hc, hrun, if_false]
    simp [Kernel.setEnv, setCurenv, setCpu, lcr3, unlockKernel, thiscpu, hd]
    rfl

theorem length_utrapframe (faultVa : Word) (tf : Trapframe) :
    (utrapframe faultVa tf).length = 13 := rfl

/-- An update of one live environment that leaves it live keeps the slots. -/
theorem sameSlots_of_update (hlive : Live s c) {v : Env} (henvs : s'.envs = Function.update s.envs c v)
    (hst : v.envStatus ≠ .free) (hpg : v.envPgdir = (s.envs c).envPgdir)
    (hlink : v.envLink = (s.envs c).envLink) (hhead : s'.envFreeList = s.envFreeList) :
    SameSlots s s' := by
  have hself : s'.envs c = v := by rw [henvs, Function.update_self]
  have hother : ∀ e, e ≠ c → s'.envs e = s.envs e := fun e he => by
    rw [henvs, Function.update_of_ne he]
  refine ⟨fun e => ?_, fun e => ?_, fun e => ?_, hhead⟩
  · rcases eq_or_ne e c with rfl | he
    · rw [hself]
      exact iff_of_false hst hlive
    · rw [hother e he]
  · rcases eq_or_ne e c with rfl | he
    · rw [hself, hpg]
    · rw [hother e he]
  · rcases eq_or_ne e c with rfl | he
    · rw [hself, hlink]
    · rw [hother e he]

theorem branched_of_phys (hlive : Live s c)
    (hw : ∀ k < 56,
      UserWritable s.phys d (utrapframeAddr (s.envs c).envTf.tfEsp + BitVec.ofNat 32 k))
    (hm : putBytes s.phys d (utrapframeAddr (s.envs c).envTf.tfEsp) 52
      (bytesOf (utrapframe faultVa (s.envs c).envTf)) = m') :
    Branched s ((Kernel.setEnv { s with phys := m' } c { s.envs c with
      envTf := { (s.envs c).envTf with
        tfEip := (s.envs c).envPgfaultUpcall
        tfEsp := utrapframeAddr (s.envs c).envTf.tfEsp } }).entered c d) c d faultVa := by
  constructor
  · exact hm.symm
  · simp [entered, Kernel.setEnv]
  · simp [entered, Kernel.setEnv]
  · exact sameSlots_of_update hlive (Function.update_idem ..)
      (by simp) (by simp [Kernel.setEnv]) (by simp [Kernel.setEnv]) rfl
  · rfl
  · rfl
  · rfl
  · rfl
  · simp [entered, Kernel.curenv]
  · simp [entered, Kernel.thiscpu]
  · exact hw

/-- The range that is checked is far from the top of memory. -/
theorem toNat_utrapframeAddr_add (esp : Word) :
    (utrapframeAddr esp).toNat + (56#32 : Word).toNat + 4095 < 2 ^ 32 := by
  obtain ⟨top, heq, -, hlo, hhi⟩ := utrapframeAddr_eq esp
  have hux : uxstacktop.toNat = 955 * 2 ^ 22 := toNat_utop
  rw [toNat_utrapframeAddr heq hlo, show (56#32 : Word).toNat = 56 by decide]
  omega

theorem Faulting.pgdir (hf : Faulting s c d) : (s.envs c).envPgdir = some d := by
  rw [← dirsOf_of_live (live_of_dirsOf hf.dir)]
  exact hf.dir

theorem Faulting.handler (hf : Faulting s c d) (faultVa : Word) :
    s.pageFaultHandler faultVa = s.faultUpcall c faultVa := by
  unfold pageFaultHandler
  rw [hf.curenv, deref_some, ok_bind, if_neg hf.user, if_pos hf.upcall]

/-- `user_mem_assert` lets the fault pass. -/
def Admitted (s : Kernel) (c : ℕ) : Prop :=
  s.userMemCheck c (utrapframeAddr (s.envs c).envTf.tfEsp) 56#32 (pteU ||| pteW ||| pteU) =
    .ok (0, s)

theorem Admitted.not_destroyed (h : Admitted s c) : ¬ Destroyed s c faultVa := by
  rintro ⟨x, hcheck, -⟩
  rw [h] at hcheck
  exact absurd (Prod.mk.inj (Except.ok.inj hcheck)).1 (by decide)

/-- The bytes that have been checked may be written. -/
theorem Admitted.writable (hs : Spaces s ρ) (hf : Faulting s c d) (h : Admitted s c) {k : ℕ}
    (hk : k < 56) :
    UserWritable s.phys d (utrapframeAddr (s.envs c).envTf.tfEsp + BitVec.ofNat 32 k) := by
  obtain ⟨top, heq, -, hlo, -⟩ := utrapframeAddr_eq (s.envs c).envTf.tfEsp
  refine hs.userWritable_of_granted hf.dir (pgnum_frame_lt _ hk) ?_
  rw [show pteU ||| pteW = pteU ||| pteW ||| pteU by decide]
  refine granted_of_userMemCheck hf.pgdir (toNat_utrapframeAddr_add _) h ?_
  unfold pagesOf
  rw [toNat_utrapframeAddr heq hlo, pgnum_eq, heq, toNat_frame_add hlo hk,
    show (56#32 : Word).toNat = 56 by decide]
  omega

/-- The check passes if user mode may write the bytes. -/
theorem admitted_of_writable (hs : Spaces s ρ) (hf : Faulting s c d)
    (h : ∀ k < 56,
      UserWritable s.phys d (utrapframeAddr (s.envs c).envTf.tfEsp + BitVec.ofNat 32 k)) :
    Admitted s c := by
  refine userMemCheck_of_granted hf.pgdir (toNat_utrapframeAddr_add _) (fun k hk => ?_)
    fun k hk => ?_
  · obtain ⟨j, hj, rfl⟩ := exists_byte_of_pagesOf _ hk
    exact hs.inWindow hf.dir (pgnum_frame_lt _ hj)
  · obtain ⟨j, hj, rfl⟩ := exists_byte_of_pagesOf _ hk
    exact granted_of_userWritable (h j hj)

/-- **With an admitted fault the environment resumes at its upcall.** -/
theorem Admitted.branched (hs : Spaces s ρ) (hf : Faulting s c d) (h : Admitted s c)
    (faultVa : Word) :
    ∃ s', s.pageFaultHandler faultVa = .ok (.left, s') ∧ Branched s s' c d faultVa := by
  have hw := fun k hk => h.writable hs hf (k := k) hk
  have hpoke := hs.pokeWords_eq (utrapframe faultVa (s.envs c).envTf) hf.dir hf.cr3
    fun k hk => hw k (by rw [length_utrapframe] at hk; omega)
  have hassert : s.userMemAssert c (utrapframeAddr (s.envs c).envTf.tfEsp) 56#32
      (pteU ||| pteW) = .ok (.ret 0, s) := by
    unfold userMemAssert
    rw [h, ok_bind]
    rfl
  rw [length_utrapframe] at hpoke
  generalize hm : putBytes s.phys d (utrapframeAddr (s.envs c).envTf.tfEsp) 52
    (bytesOf (utrapframe faultVa (s.envs c).envTf)) = m' at hpoke
  rw [hf.handler]
  unfold faultUpcall
  dsimp only
  rw [hassert, ok_bind]
  dsimp only
  rw [hpoke, ok_bind, envRun_curenv (d := d) ?_ ?_]
  · exact ⟨_, rfl, branched_of_phys (live_of_dirsOf hf.dir) hw hm⟩
  · exact hf.curenv
  · simpa [Kernel.setEnv] using hf.pgdir

/-- **The two outcomes of `page_fault_handler`.** -/
theorem destroyed_or_admitted (hs : Spaces s ρ) (hf : Faulting s c d) (faultVa : Word) :
    Destroyed s c faultVa ∨ Admitted s c := by
  obtain ⟨r, s₁, hcheck⟩ := exists_userMemCheck (pteU ||| pteW ||| pteU) hf.pgdir
    (toNat_utrapframeAddr_add (s.envs c).envTf.tfEsp) fun k hk => by
      obtain ⟨j, hj, rfl⟩ := exists_byte_of_pagesOf _ hk
      exact hs.inWindow hf.dir (pgnum_frame_lt _ hj)
  rcases userMemCheck_cases hcheck with ⟨rfl, rfl⟩ | ⟨rfl, x, rfl⟩
  · exact Or.inr hcheck
  · refine Or.inl ⟨x, hcheck, ?_⟩
    have hassert : s.userMemAssert c (utrapframeAddr (s.envs c).envTf.tfEsp) 56#32
        (pteU ||| pteW) = ({ s with userMemCheckAddr := x } : Kernel).envDestroy c := by
      unfold userMemAssert
      rw [hcheck, ok_bind]
      exact if_pos (by decide)
    rw [hf.handler]
    unfold faultUpcall
    dsimp only
    rw [hassert]
    cases hdes : ({ s with userMemCheckAddr := x } : Kernel).envDestroy c with
    | error p => rfl
    | ok q =>
      obtain ⟨fl, s₂⟩ := q
      cases fl with
      | left => rfl
      | ret r => exact absurd hdes (envDestroy_curenv hf.curenv)

/-- **The address spaces stay well formed.** -/
theorem Branched.spaces (hs : Spaces s ρ) (hd : dirsOf s c = some d)
    (h : Branched s s' c d faultVa) : Spaces s' ρ := by
  have hdata : ∀ f, ρ f ≠ .data → s'.phys f = s.phys f := by
    intro f hf
    rw [h.phys]
    exact hs.putBytes_frame hd (fun k hk => h.writable k (hk.trans (by decide))) _ hf
  have hdir : ∀ e d, dirsOf s e = some d → s'.phys d = s.phys d := fun e d hd => by
    refine hdata d ?_
    rw [hs.typed.tree.dir.mp hd]
    exact nofun
  constructor
  · rw [h.slots.dirsOf]
    refine hs.typed.writeFrames h.npages h.pages h.pageFreeList fun f hnode k => ?_
    rw [hdata f]
    intro h0
    rw [h0] at hnode
    exact hnode
  · intro e d i hd hi hp
    rw [h.slots.dirsOf] at hd
    rw [hdir e d hd] at hp ⊢
    exact hs.wide e d i hd hi hp

end Kernel
end PmakeOs
