import PmakeOs.Kernel.Pmap

/-!
# The functions of `kern/pmap.c` touch memory only

Whatever page-table state they start from, the functions on pages and page
tables leave the environments, the CPUs and the lock alone: they write `pages`,
its free list and physical memory, and they may shorten the TLB of the executing
CPU.  What they record is about memory too.  `MemoryOnly s s'` says so, and each
function is shown to have it whenever it returns.  No invariant is assumed.
-/

namespace PmakeOs
namespace Kernel

variable {s s' s'' : Kernel} {d : ℕ} {va perm : Word}

/-- The state differs in memory, and in the TLB of the executing CPU, only. -/
structure MemoryOnly (s s' : Kernel) : Prop where
  npages : s'.npages = s.npages
  kernPgdir : s'.kernPgdir = s.kernPgdir
  envs : s'.envs = s.envs
  envFreeList : s'.envFreeList = s.envFreeList
  cpunum : s'.cpunum = s.cpunum
  kernelLock : s'.kernelLock = s.kernelLock
  cpu : ∀ c, ∃ tlb, s'.cpus c = { s.cpus c with tlb := tlb }
  other : ∀ c, c ≠ s.cpunum → s'.cpus c = s.cpus c
  log : ∃ new, s'.log = new ++ s.log ∧ ∀ ev ∈ new, ev.isMemory = true

namespace MemoryOnly

theorem refl (s : Kernel) : MemoryOnly s s :=
  ⟨rfl, rfl, rfl, rfl, rfl, rfl, fun _ => ⟨_, rfl⟩, fun _ _ => rfl, [], rfl, fun _ h => nomatch h⟩

theorem trans (h : MemoryOnly s s') (h' : MemoryOnly s' s'') : MemoryOnly s s'' := by
  refine ⟨h'.npages.trans h.npages, h'.kernPgdir.trans h.kernPgdir, h'.envs.trans h.envs,
    h'.envFreeList.trans h.envFreeList, h'.cpunum.trans h.cpunum,
    h'.kernelLock.trans h.kernelLock, fun c => ?_, fun c hc => ?_, ?_⟩
  · obtain ⟨l, hl⟩ := h.cpu c
    obtain ⟨l', hl'⟩ := h'.cpu c
    exact ⟨l', by rw [hl', hl]⟩
  · rw [h'.other c (by rw [h.cpunum]; exact hc), h.other c hc]
  · obtain ⟨new, hl, hnew⟩ := h.log
    obtain ⟨new', hl', hnew'⟩ := h'.log
    refine ⟨new' ++ new, by rw [hl', hl, List.append_assoc], fun ev hev => ?_⟩
    rcases List.mem_append.mp hev with hev | hev
    · exact hnew' ev hev
    · exact hnew ev hev

theorem controlLog (h : MemoryOnly s s') : s'.controlLog = s.controlLog := by
  obtain ⟨new, hl, hnew⟩ := h.log
  have hnil : new.filter (fun ev => !ev.isMemory) = [] := by
    rw [List.filter_eq_nil_iff]
    intro ev hev
    simp [hnew ev hev]
  rw [Kernel.controlLog, hl, List.filter_append, hnil]
  rfl

theorem cpuEnv (h : MemoryOnly s s') (c : ℕ) : (s'.cpus c).cpuEnv = (s.cpus c).cpuEnv := by
  obtain ⟨l, hl⟩ := h.cpu c
  rw [hl]

theorem userMode (h : MemoryOnly s s') (c : ℕ) : (s'.cpus c).userMode = (s.cpus c).userMode := by
  obtain ⟨l, hl⟩ := h.cpu c
  rw [hl]

theorem curenv (h : MemoryOnly s s') : s'.curenv = s.curenv := by
  unfold Kernel.curenv
  rw [h.cpunum, h.cpuEnv]

theorem of_cpus (hn : s'.npages = s.npages) (hk : s'.kernPgdir = s.kernPgdir)
    (he : s'.envs = s.envs) (hf : s'.envFreeList = s.envFreeList) (hc : s'.cpunum = s.cpunum)
    (hl : s'.kernelLock = s.kernelLock) (hs : s'.cpus = s.cpus)
    (hlog : s'.log = s.log) : MemoryOnly s s' :=
  ⟨hn, hk, he, hf, hc, hl, fun _ => ⟨_, by rw [hs]⟩, fun _ _ => by rw [hs],
    [], hlog, fun _ h => nomatch h⟩

theorem setWord (s : Kernel) (f i : ℕ) (w : Word) : MemoryOnly s (s.setWord f i w) :=
  of_cpus rfl rfl rfl rfl rfl rfl rfl rfl

theorem setPage (s : Kernel) (p : ℕ) (v : PageInfo) : MemoryOnly s (s.setPage p v) :=
  of_cpus rfl rfl rfl rfl rfl rfl rfl rfl

theorem incRef (s : Kernel) (p : ℕ) : MemoryOnly s (s.incRef p) := setPage s p _

theorem note (s : Kernel) {ev : Event} (h : ev.isMemory = true) : MemoryOnly s (s.note ev) := by
  refine ⟨rfl, rfl, rfl, rfl, rfl, rfl, fun _ => ⟨_, rfl⟩, fun _ _ => rfl, [ev], rfl, ?_⟩
  intro ev' hev
  obtain rfl := List.mem_singleton.mp hev
  exact h

theorem invlpg (s : Kernel) (va : Word) : MemoryOnly s (s.invlpg va) := by
  refine ⟨rfl, rfl, rfl, rfl, rfl, rfl, fun c => ?_, fun c hc => ?_,
    [], rfl, fun _ h => nomatch h⟩
  · by_cases h : c = s.cpunum
    · subst h
      exact ⟨_, Function.update_self _ _ _⟩
    · exact ⟨_, Function.update_of_ne h _ _⟩
  · exact Function.update_of_ne hc _ _

theorem tlbInvalidate (s : Kernel) (d : ℕ) (va : Word) : MemoryOnly s (s.tlbInvalidate d va) := by
  unfold Kernel.tlbInvalidate
  split
  · exact invlpg s va
  · split
    · exact invlpg s va
    · exact refl s

end MemoryOnly

/-! ## The allocator -/

theorem memoryOnly_of_pageAlloc {fl : Word} {o : Option ℕ}
    (h : s.pageAlloc fl = .ok (o, s')) : MemoryOnly s s' := by
  unfold pageAlloc at h
  cases hl : s.pageFreeList with
  | none =>
    rw [hl] at h
    obtain ⟨-, rfl⟩ := Prod.mk.inj (Except.ok.inj h)
    exact .refl s
  | some p =>
    rw [hl] at h
    simp only at h
    split at h
    · obtain ⟨f, -, h⟩ := bind_eq_ok.mp h
      obtain ⟨-, rfl⟩ := Prod.mk.inj (Except.ok.inj h)
      exact .of_cpus rfl rfl rfl rfl rfl rfl rfl rfl
    · obtain ⟨-, rfl⟩ := Prod.mk.inj (Except.ok.inj h)
      exact .of_cpus rfl rfl rfl rfl rfl rfl rfl rfl

theorem memoryOnly_of_pageFree {p : ℕ} (h : s.pageFree p = .ok s') : MemoryOnly s s' := by
  unfold pageFree at h
  split at h
  · cases h
  · obtain rfl := Except.ok.inj h
    exact .of_cpus rfl rfl rfl rfl rfl rfl rfl rfl

theorem memoryOnly_of_pageDecref {p : ℕ} (h : s.pageDecref p = .ok s') : MemoryOnly s s' := by
  unfold pageDecref at h
  simp only at h
  split at h
  · exact (MemoryOnly.setPage s p _).trans (memoryOnly_of_pageFree h)
  · obtain rfl := Except.ok.inj h
    exact .setPage s p _

/-! ## The tables -/

theorem memoryOnly_of_pgdirWalk {create : Bool} {o : Option (ℕ × ℕ)}
    (h : s.pgdirWalk d va create = .ok (o, s')) : MemoryOnly s s' := by
  unfold pgdirWalk at h
  split at h
  · split at h
    · obtain ⟨⟨o₁, s₁⟩, halloc, h⟩ := bind_eq_ok.mp h
      have h₁ := memoryOnly_of_pageAlloc halloc
      cases o₁ with
      | none =>
        obtain ⟨-, rfl⟩ := Prod.mk.inj (Except.ok.inj h)
        exact h₁
      | some p =>
        obtain ⟨t, -, h⟩ := bind_eq_ok.mp h
        obtain ⟨-, rfl⟩ := Prod.mk.inj (Except.ok.inj h)
        exact h₁.trans (((MemoryOnly.incRef s₁ p).trans (.setWord _ _ _ _)).trans (.note _ rfl))
    · obtain ⟨-, rfl⟩ := Prod.mk.inj (Except.ok.inj h)
      exact .refl s
  · obtain ⟨t, -, h⟩ := bind_eq_ok.mp h
    obtain ⟨-, rfl⟩ := Prod.mk.inj (Except.ok.inj h)
    exact .refl s

theorem memoryOnly_of_pageRemove (h : s.pageRemove d va = .ok s') : MemoryOnly s s' := by
  unfold pageRemove at h
  obtain ⟨o, -, h⟩ := bind_eq_ok.mp h
  cases o with
  | none =>
    obtain rfl := Except.ok.inj h
    exact .refl s
  | some r =>
    obtain ⟨pp, t, j⟩ := r
    obtain ⟨s₁, hdec, h⟩ := bind_eq_ok.mp h
    obtain rfl := Except.ok.inj h
    exact (memoryOnly_of_pageDecref hdec).trans
      ((MemoryOnly.setWord s₁ t j 0#32).trans (.tlbInvalidate _ d va))

theorem memoryOnly_of_pageInsert {pp : ℕ} {r : ℤ}
    (h : s.pageInsert d pp va perm = .ok (r, s')) : MemoryOnly s s' := by
  unfold pageInsert at h
  obtain ⟨⟨o, s₁⟩, hwalk, h⟩ := bind_eq_ok.mp h
  have h₁ := memoryOnly_of_pgdirWalk hwalk
  cases o with
  | none =>
    obtain ⟨-, rfl⟩ := Prod.mk.inj (Except.ok.inj h)
    exact h₁
  | some r =>
    obtain ⟨t, j⟩ := r
    obtain ⟨s₂, hrem, h⟩ := bind_eq_ok.mp h
    obtain ⟨-, rfl⟩ := Prod.mk.inj (Except.ok.inj h)
    have h₂ : MemoryOnly (s₁.incRef pp) s₂ := by
      split at hrem
      · exact memoryOnly_of_pageRemove hrem
      · obtain rfl := Except.ok.inj hrem
        exact .refl _
    have h₃ := (MemoryOnly.incRef s₁ pp).trans h₂
    exact h₁.trans (h₃.trans (((MemoryOnly.setWord s₂ t j _).trans (.setWord _ d (pdx va) _)).trans
      (.note _ rfl)))

end Kernel
end PmakeOs
