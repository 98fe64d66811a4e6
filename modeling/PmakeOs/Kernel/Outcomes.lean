import PmakeOs.Kernel.Syscall

/-!
# What the calls on pages come down to

Each of `sys_page_alloc`, `sys_page_map`, `sys_page_unmap` and `sys_ipc_try_send` makes its
checks and then stores with one call of `page_insert` or `page_remove`.  If it returns, it has
changed nothing, or the checks have passed and that call was made.  No invariant is assumed.
-/

namespace PmakeOs
namespace Kernel

variable {s s' : Kernel} {c r : ℕ} {va perm envid : Word} {ret : ℤ}

theorem eq_of_pageAlloc_none {fl : Word} (hrun : s.pageAlloc fl = .ok (none, s')) : s' = s := by
  unfold pageAlloc at hrun
  cases hl : s.pageFreeList with
  | none =>
    rw [hl] at hrun
    exact (Prod.mk.inj (Except.ok.inj hrun)).2.symm
  | some q =>
    rw [hl] at hrun
    dsimp only at hrun
    split at hrun
    · obtain ⟨f, -, hr⟩ := bind_eq_ok.mp hrun
      exact nomatch (Prod.mk.inj (Except.ok.inj hr)).1
    · exact nomatch (Prod.mk.inj (Except.ok.inj hrun)).1

/-- **`sys_page_alloc`.**  If `page_insert` fails, the page goes back. -/
theorem sysPageAlloc_outcome (h : s.sysPageAlloc envid va perm = .ok (ret, s')) :
    ret ≠ 0 ∧ s' = s ∨ ∃ e d p s₁ ret' s₂, s.envid2env envid true = .ok (0, some e) ∧
      va < utop ∧ ¬ Unaligned va ∧ perm &&& (pteU ||| pteP) = pteU ||| pteP ∧
      s.pageAlloc allocZero = .ok (some p, s₁) ∧ (s₁.envs e).envPgdir = some d ∧
      (s₁.note (.userPage p)).pageInsert d p va perm = .ok (ret', s₂) ∧
      (ret' = 0 ∧ ret = 0 ∧ s' = s₂ ∨ ret' ≠ 0 ∧ ret = ret' ∧ s₂.pageFree p = .ok s') := by
  unfold sysPageAlloc at h
  obtain ⟨⟨r₀, o⟩, henv, h⟩ := bind_eq_ok.mp h
  simp only at h
  have hinval : -eInval ≠ 0 := by decide
  split at h
  · rename_i hne
    obtain ⟨rfl, rfl⟩ := Prod.mk.inj (Except.ok.inj h)
    exact Or.inl ⟨hne, rfl⟩
  rename_i hr₀
  split at h
  · obtain ⟨rfl, rfl⟩ := Prod.mk.inj (Except.ok.inj h)
    exact Or.inl ⟨hinval, rfl⟩
  rename_i hva
  obtain ⟨hlt, hal⟩ := not_or.mp hva
  split at h
  · obtain ⟨rfl, rfl⟩ := Prod.mk.inj (Except.ok.inj h)
    exact Or.inl ⟨hinval, rfl⟩
  rename_i hbits
  obtain ⟨⟨pg, s₁⟩, halloc, h⟩ := bind_eq_ok.mp h
  cases pg with
  | none =>
    obtain ⟨rfl, rfl⟩ := Prod.mk.inj (Except.ok.inj h)
    exact Or.inl ⟨by decide, eq_of_pageAlloc_none halloc⟩
  | some p =>
    obtain ⟨e, he, h⟩ := bind_eq_ok.mp h
    rw [not_not.mp hr₀, deref_eq_ok he] at henv
    obtain ⟨d, hd, h⟩ := bind_eq_ok.mp h
    obtain ⟨⟨ret', s₂⟩, hins, h⟩ := bind_eq_ok.mp h
    refine Or.inr ⟨e, d, p, s₁, ret', s₂, henv, BitVec.not_le.mp hlt, hal, not_not.mp hbits, halloc,
      deref_eq_ok hd, hins, ?_⟩
    simp only at h
    split at h
    · rename_i hne
      obtain ⟨s₃, hfree, h⟩ := bind_eq_ok.mp h
      obtain ⟨rfl, rfl⟩ := Prod.mk.inj (Except.ok.inj h)
      exact Or.inr ⟨hne, rfl, hfree⟩
    · rename_i hz
      obtain ⟨rfl, rfl⟩ := Prod.mk.inj (Except.ok.inj h)
      exact Or.inl ⟨not_not.mp hz, rfl, rfl⟩

/-- **`sys_page_map`.** -/
theorem sysPageMap_outcome {srcenvid srcva dstenvid dstva : Word}
    (h : s.sysPageMap srcenvid srcva dstenvid dstva perm = .ok (ret, s')) :
    ret ≠ 0 ∧ s' = s ∨ ∃ se e sd d pg t j, s.envid2env srcenvid true = .ok (0, some se) ∧
      s.envid2env dstenvid true = .ok (0, some e) ∧
      srcva < utop ∧ dstva < utop ∧ ¬ Unaligned srcva ∧ ¬ Unaligned dstva ∧
      (s.envs se).envPgdir = some sd ∧ s.pageLookup sd srcva = .ok (some (pg, (t, j))) ∧
      perm &&& (pteU ||| pteP) = pteU ||| pteP ∧ (Has perm pteW → Has (s.phys t j) pteW) ∧
      (s.envs e).envPgdir = some d ∧ s.pageInsert d pg dstva perm = .ok (ret, s') := by
  unfold sysPageMap at h
  obtain ⟨⟨r₁, o₁⟩, hsrc, h⟩ := bind_eq_ok.mp h
  simp only at h
  split at h
  · rename_i hne
    obtain ⟨rfl, rfl⟩ := Prod.mk.inj (Except.ok.inj h)
    exact Or.inl ⟨hne, rfl⟩
  rename_i hr₁
  obtain ⟨⟨r₂, o₂⟩, hdst, h⟩ := bind_eq_ok.mp h
  simp only at h
  have hinval : -eInval ≠ 0 := by decide
  split at h
  · rename_i hne
    obtain ⟨rfl, rfl⟩ := Prod.mk.inj (Except.ok.inj h)
    exact Or.inl ⟨hne, rfl⟩
  rename_i hr₂
  split at h
  · obtain ⟨rfl, rfl⟩ := Prod.mk.inj (Except.ok.inj h)
    exact Or.inl ⟨hinval, rfl⟩
  rename_i hva
  simp only [not_or, BitVec.not_le] at hva
  obtain ⟨hsva, hdva, hsal, hdal⟩ := hva
  obtain ⟨se, hse, h⟩ := bind_eq_ok.mp h
  rw [not_not.mp hr₁, deref_eq_ok hse] at hsrc
  obtain ⟨sd, hsd, h⟩ := bind_eq_ok.mp h
  obtain ⟨look, hlook, h⟩ := bind_eq_ok.mp h
  cases look with
  | none =>
    obtain ⟨rfl, rfl⟩ := Prod.mk.inj (Except.ok.inj h)
    exact Or.inl ⟨hinval, rfl⟩
  | some found =>
    obtain ⟨pg, t, j⟩ := found
    simp only at h
    split at h
    · obtain ⟨rfl, rfl⟩ := Prod.mk.inj (Except.ok.inj h)
      exact Or.inl ⟨hinval, rfl⟩
    rename_i hbits
    split at h
    · obtain ⟨rfl, rfl⟩ := Prod.mk.inj (Except.ok.inj h)
      exact Or.inl ⟨hinval, rfl⟩
    rename_i hright
    obtain ⟨e, he, h⟩ := bind_eq_ok.mp h
    rw [not_not.mp hr₂, deref_eq_ok he] at hdst
    obtain ⟨d, hd, h⟩ := bind_eq_ok.mp h
    exact Or.inr ⟨se, e, sd, d, pg, t, j, hsrc, hdst, hsva, hdva, hsal, hdal, deref_eq_ok hsd,
      hlook, not_not.mp hbits, fun hw => by_contra fun hno => hright ⟨hno, hw⟩, deref_eq_ok hd, h⟩

/-- **`sys_page_unmap`.** -/
theorem sysPageUnmap_outcome (h : s.sysPageUnmap envid va = .ok (ret, s')) :
    ret ≠ 0 ∧ s' = s ∨ ∃ e d, s.envid2env envid true = .ok (0, some e) ∧ va < utop ∧
      ¬ Unaligned va ∧ (s.envs e).envPgdir = some d ∧ s.pageRemove d va = .ok s' ∧ ret = 0 := by
  unfold sysPageUnmap at h
  obtain ⟨⟨r₀, o⟩, henv, h⟩ := bind_eq_ok.mp h
  simp only at h
  split at h
  · rename_i hne
    obtain ⟨rfl, rfl⟩ := Prod.mk.inj (Except.ok.inj h)
    exact Or.inl ⟨hne, rfl⟩
  rename_i hr₀
  split at h
  · obtain ⟨rfl, rfl⟩ := Prod.mk.inj (Except.ok.inj h)
    exact Or.inl ⟨by decide, rfl⟩
  rename_i hva
  obtain ⟨hlt, hal⟩ := not_or.mp hva
  obtain ⟨e, he, h⟩ := bind_eq_ok.mp h
  rw [not_not.mp hr₀, deref_eq_ok he] at henv
  obtain ⟨d, hd, h⟩ := bind_eq_ok.mp h
  obtain ⟨s₁, hrem, h⟩ := bind_eq_ok.mp h
  obtain ⟨rfl, rfl⟩ := Prod.mk.inj (Except.ok.inj h)
  exact Or.inr ⟨e, d, henv, BitVec.not_le.mp hlt, hal, deref_eq_ok hd, hrem, rfl⟩

/-- **The page transfer of `sys_ipc_try_send`.** -/
theorem ipcTransfer_outcome {srcva : Word} {stale : Option Word}
    (h : s.ipcTransfer c r srcva perm stale = .ok (ret, s')) :
    (ret ≠ 0 ∨ ¬ (srcva < utop ∧ (s.envs r).envIpcDstva < utop)) ∧ s' = s ∨
    ∃ sd rd pg t j s₁, srcva < utop ∧ ¬ Unaligned srcva ∧
      (s.envs c).envPgdir = some sd ∧ s.pageLookup sd srcva = .ok (some (pg, (t, j))) ∧
      s.phys t j &&& perm &&& 7#32 = perm &&& 7#32 ∧ (Has perm pteW → Has (s.phys t j) pteW) ∧
      (s.envs r).envIpcDstva < utop ∧ (s.envs r).envPgdir = some rd ∧
      s.pageInsert rd pg (s.envs r).envIpcDstva perm = .ok (ret, s₁) ∧
      (ret ≠ 0 ∧ s' = s₁ ∨
        ret = 0 ∧ s' = s₁.setEnv r { s₁.envs r with envIpcPerm := perm }) := by
  have hinval : -eInval ≠ 0 := by decide
  unfold ipcTransfer at h
  split at h
  · rename_i hva
    obtain ⟨-, rfl⟩ := Prod.mk.inj (Except.ok.inj h)
    exact Or.inl ⟨Or.inr fun h0 => BitVec.not_le.mpr h0.1 hva, rfl⟩
  rename_i hva
  obtain ⟨sd, hsd, h⟩ := bind_eq_ok.mp h
  obtain ⟨look, hlook, h⟩ := bind_eq_ok.mp h
  split at h
  · obtain ⟨rfl, rfl⟩ := Prod.mk.inj (Except.ok.inj h)
    exact Or.inl ⟨Or.inl hinval, rfl⟩
  rename_i hal
  cases look with
  | none =>
    obtain ⟨pte, -, h⟩ := bind_eq_ok.mp h
    simp only at h
    split at h <;>
      · obtain ⟨rfl, rfl⟩ := Prod.mk.inj (Except.ok.inj h)
        exact Or.inl ⟨Or.inl hinval, rfl⟩
  | some found =>
    obtain ⟨pg, t, j⟩ := found
    obtain ⟨pte, hpte, h⟩ := bind_eq_ok.mp h
    obtain rfl := Except.ok.inj hpte
    simp only at h
    split at h
    · obtain ⟨rfl, rfl⟩ := Prod.mk.inj (Except.ok.inj h)
      exact Or.inl ⟨Or.inl hinval, rfl⟩
    rename_i hbits
    split at h
    · obtain ⟨rfl, rfl⟩ := Prod.mk.inj (Except.ok.inj h)
      exact Or.inl ⟨Or.inl hinval, rfl⟩
    rename_i hright
    split at h
    · rename_i hdst
      obtain ⟨rd, hrd, h⟩ := bind_eq_ok.mp h
      obtain ⟨⟨ret', s₁⟩, hins, h⟩ := bind_eq_ok.mp h
      simp only at h
      have hpass : Has perm pteW → Has (s.phys t j) pteW :=
        fun hw => by_contra fun hno => hright ⟨hw, hno⟩
      have hend : ret = ret' ∧ (ret ≠ 0 ∧ s' = s₁ ∨
          ret = 0 ∧ s' = s₁.setEnv r { s₁.envs r with envIpcPerm := perm }) := by
        split at h
        · rename_i hne
          obtain ⟨rfl, rfl⟩ := Prod.mk.inj (Except.ok.inj h)
          exact ⟨rfl, Or.inl ⟨hne, rfl⟩⟩
        · rename_i hz
          obtain ⟨rfl, rfl⟩ := Prod.mk.inj (Except.ok.inj h)
          exact ⟨(not_not.mp hz).symm, Or.inr ⟨rfl, rfl⟩⟩
      obtain ⟨rfl, hend⟩ := hend
      exact Or.inr ⟨sd, rd, pg, t, j, s₁, BitVec.not_le.mp hva, hal, deref_eq_ok hsd, hlook,
        not_not.mp hbits, hpass, hdst, deref_eq_ok hrd, hins, hend⟩
    · rename_i hdst
      obtain ⟨-, rfl⟩ := Prod.mk.inj (Except.ok.inj h)
      exact Or.inl ⟨Or.inr fun h0 => hdst h0.2, rfl⟩

/-- **`sys_ipc_try_send`.** -/
theorem sysIpcTrySend_outcome {value srcva : Word} {stale : Option Word}
    (h : s.sysIpcTrySend envid value srcva perm stale = .ok (ret, s')) :
    ret ≠ 0 ∧ s' = s ∨ ∃ r c s₁, s.envid2env envid false = .ok (0, some r) ∧
      (s.envs r).envIpcRecving = true ∧ s.curenv = some c ∧
      s.ipcTransfer c r srcva perm stale = .ok (ret, s₁) ∧
      (ret ≠ 0 ∧ s' = s₁ ∨ ret = 0 ∧ s' = s₁.setEnv r { s₁.envs r with
        envIpcRecving := false
        envIpcFrom := (s₁.envs c).envId
        envIpcValue := value
        envStatus := .runnable
        envTf := { (s₁.envs r).envTf with
          tfRegs := { (s₁.envs r).envTf.tfRegs with regEax := 0 } } }) := by
  unfold sysIpcTrySend at h
  obtain ⟨⟨r₀, o⟩, henv, h⟩ := bind_eq_ok.mp h
  simp only at h
  split at h
  · rename_i hne
    obtain ⟨rfl, rfl⟩ := Prod.mk.inj (Except.ok.inj h)
    exact Or.inl ⟨hne, rfl⟩
  rename_i hr₀
  obtain ⟨r, hr, h⟩ := bind_eq_ok.mp h
  rw [not_not.mp hr₀, deref_eq_ok hr] at henv
  split at h
  · obtain ⟨rfl, rfl⟩ := Prod.mk.inj (Except.ok.inj h)
    exact Or.inl ⟨by decide, rfl⟩
  rename_i hrecv
  obtain ⟨c, hc, h⟩ := bind_eq_ok.mp h
  obtain ⟨⟨ret', s₁⟩, htr, h⟩ := bind_eq_ok.mp h
  simp only at h
  split at h
  · rename_i hne
    obtain ⟨rfl, rfl⟩ := Prod.mk.inj (Except.ok.inj h)
    exact Or.inr ⟨r, c, s₁, henv, not_not.mp hrecv, deref_eq_ok hc, htr, Or.inl ⟨hne, rfl⟩⟩
  · rename_i hz
    obtain ⟨rfl, rfl⟩ := Prod.mk.inj (Except.ok.inj h)
    rw [not_not.mp hz] at htr
    exact Or.inr ⟨r, c, s₁, henv, not_not.mp hrecv, deref_eq_ok hc, htr, Or.inr ⟨rfl, rfl⟩⟩

end Kernel
end PmakeOs
