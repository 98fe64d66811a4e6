import PmakeOs.Space.SelfMap
import PmakeOs.Space.Freeing
import PmakeOs.Trap.PageFault

/-!
# What the processor finds in an address space

A processor caches translations that it once found.  What it cached stays true as long as
a walk that succeeded before succeeds again, with the same result.  `Keeps W C s s'` says so
of the address spaces of the environments in `W`, for their pages in `C`: any pages, those
below `UTOP`, the window at `UVPT`, and the kernel's.

* `Sound.walk_congr` --- a walk reads the directory, the tables, and the kernel's tables;
* `Inserted.keeps`, `Removed.keeps` --- `page_insert` and `page_remove`, which is where a
  translation may be lost: that of the page itself.
-/

namespace PmakeOs

open Lib

namespace Kernel

variable {s s' : Kernel} {ρ ρ' : ℕ → Role} {W pend : ℕ → Prop} {C : ℕ → ℕ → Prop}
  {e d pp p vpn n : ℕ} {va perm : Word} {o : Option Word} {t : Translation}

/-- The address spaces of the environments in `W` are where they were, and what a processor
found there for a page in `C` it still finds. -/
def Keeps (W : ℕ → Prop) (C : ℕ → ℕ → Prop) (s s' : Kernel) : Prop :=
  ∀ e d, W e → dirsOf s e = some d → dirsOf s' e = some d ∧
    ∀ vpn < npdentries * nptentries, C e vpn → ∀ t, mmuWalk s.phys d vpn = some t →
      mmuWalk s'.phys d vpn = some t

theorem Keeps.of_eq (hd : dirsOf s' = dirsOf s) (hm : s'.phys = s.phys) : Keeps W C s s' := by
  intro e d _ he
  rw [hd, hm]
  exact ⟨he, fun _ _ _ _ ht => ht⟩

theorem Keeps.refl (s : Kernel) : Keeps W C s s := .of_eq rfl rfl

theorem Keeps.trans {s'' : Kernel} (h : Keeps W C s s') (h' : Keeps W C s' s'') :
    Keeps W C s s'' := by
  intro e d hW hd
  obtain ⟨hd', hwalk⟩ := h e d hW hd
  obtain ⟨hd'', hwalk'⟩ := h' e d hW hd'
  exact ⟨hd'', fun vpn hv hC t ht => hwalk' vpn hv hC t (hwalk vpn hv hC t ht)⟩

/-! ## The frames that a walk reads -/

/-- A walk in the address space of `e` may read frame `f`. -/
def ReadFor (ρ : ℕ → Role) (e f : ℕ) : Prop :=
  ρ f = .dir e ∨ (∃ i, ρ f = .table e i) ∨ ρ f = .kern

theorem ReadFor.ne_free {f : ℕ} (h : ReadFor ρ e f) : ρ f ≠ .free := by
  rcases h with h | ⟨i, h⟩ | h <;> rw [h] <;> simp

theorem ReadFor.ne_data {f : ℕ} (h : ReadFor ρ e f) : ρ f ≠ .data := by
  rcases h with h | ⟨i, h⟩ | h <;> rw [h] <;> simp

theorem ReadFor.ne_dir {f e' : ℕ} (h : ReadFor ρ e f) (he : e ≠ e') : ρ f ≠ .dir e' := by
  rcases h with h | ⟨i, h⟩ | h <;> rw [h] <;> simp [he]

theorem ReadFor.ne_table {f e' i : ℕ} (h : ReadFor ρ e f) (he : e ≠ e') : ρ f ≠ .table e' i := by
  rcases h with h | ⟨i, h⟩ | h <;> rw [h] <;> simp [he]

/-- The entry at `PDX(UVPT)`. -/
theorem Sound.selfEntry (h : Sound s ρ pend) (hd : dirsOf s e = some d) :
    s.phys d (pdx uvpt) = Kernel.selfEntry d ∧ frame (s.phys d (pdx uvpt)) = d := by
  have hword := h.layout.upper hd (show pdx utop ≤ pdx uvpt by decide) (by decide)
  rw [if_pos rfl] at hword
  have hlt : d < kernWindow := h.ledger.typed.lt_kernWindow (by
    rw [h.ledger.typed.tree.dir.mp hd]
    simp)
  refine ⟨hword, ?_⟩
  rw [hword]
  exact frame_selfEntry hlt

/-- The table that a present directory entry points to. -/
theorem Sound.readFor_table (h : Sound s ρ pend) (hd : dirsOf s e = some d) {i : ℕ}
    (hi : i < npdentries) (hp : Has (s.phys d i) pteP) : ReadFor ρ e (frame (s.phys d i)) := by
  rcases Nat.lt_or_ge i (pdx utop) with hlow | hup
  · exact Or.inr (Or.inl ⟨i, h.ledger.typed.tree.table hd hlow hp⟩)
  rcases eq_or_ne i (pdx uvpt) with rfl | hne
  · rw [(h.selfEntry hd).2]
    exact Or.inl (h.ledger.typed.tree.dir.mp hd)
  · rw [h.layout.upper hd hup hi, if_neg hne] at hp ⊢
    exact Or.inr (Or.inr (h.layout.high hup hi hne hp).1)

/-- **A walk depends on the frames that it may read.** -/
theorem Sound.walk_congr (h : Sound s ρ pend) (hd : dirsOf s e = some d) {m' : Phys}
    (hm : ∀ f, ReadFor ρ e f → ∀ k, m' f k = s.phys f k)
    (hv : vpn < npdentries * nptentries) : mmuWalk m' d vpn = mmuWalk s.phys d vpn := by
  have hi : vpn / nptentries < npdentries := Nat.div_lt_of_lt_mul (by rwa [Nat.mul_comm])
  have hpde := hm d (Or.inl (h.ledger.typed.tree.dir.mp hd)) (vpn / nptentries)
  by_cases hp : Has (s.phys d (vpn / nptentries)) pteP
  · exact mmuWalk_congr hpde (hm _ (h.readFor_table hd hi hp) _)
  · unfold mmuWalk
    simp only [hpde, hp, false_and, if_false]

/-- Only frames that no walk for an environment in `W` may read have changed. -/
theorem Sound.keeps_of_words (h : Sound s ρ pend)
    (hdirs : ∀ e d, W e → dirsOf s e = some d → dirsOf s' e = some d)
    (hm : ∀ e, W e → ∀ f, ReadFor ρ e f → ∀ k, s'.phys f k = s.phys f k) : Keeps W C s s' := by
  refine fun e d hW hd => ⟨hdirs e d hW hd, fun vpn hv _ t ht => ?_⟩
  rw [h.walk_congr hd (hm e hW) hv]
  exact ht

/-! ## Entries that say the same -/

/-- What entry `w` says, if it is present, entry `w'` says too. -/
def Alike (w w' : Word) : Prop := Has w pteP → Has w' pteP ∧ frame w' = frame w ∧
  (Has w' pteU ↔ Has w pteU) ∧ (Has w' pteW ↔ Has w pteW)

theorem Alike.of_eq {w w' : Word} (h : w' = w) : Alike w w' := by
  subst h
  exact fun hp => ⟨hp, rfl, Iff.rfl, Iff.rfl⟩

/-- Flags or-ed into an entry that grants both rights. -/
theorem alike_or {w : Word} (hw : Has w pteP → Has w pteU ∧ Has w pteW)
    (hperm : perm.toNat < 2 ^ 12) : Alike w (w ||| perm) := by
  intro hp
  obtain ⟨hU, hW⟩ := hw hp
  simp [hp, hU, hW, frame_or_of_lt _ hperm]

theorem mmuWalk_of_alike {m m' : Phys} (h : mmuWalk m d vpn = some t)
    (hpde : Alike (m d (vpn / nptentries)) (m' d (vpn / nptentries)))
    (hpte : Alike (m (frame (m d (vpn / nptentries))) (vpn % nptentries))
      (m' (frame (m d (vpn / nptentries))) (vpn % nptentries))) : mmuWalk m' d vpn = some t := by
  unfold mmuWalk at h ⊢
  dsimp only at h ⊢
  split at h
  · rename_i hp
    obtain ⟨hp', hframe, hU, hW⟩ := hpde hp.1
    rw [hframe]
    obtain ⟨hq', hframe', hU', hW'⟩ := hpte hp.2
    rw [if_pos ⟨hp', hq'⟩, ← Option.some.inj h]
    simp only [hframe', hU, hU', hW, hW']
  · cases h

/-! ## Insertion and removal -/

/-- The translation that an entry with the flags `perm` gives. -/
def translationOf (pp : ℕ) (perm : Word) : Translation :=
  ⟨pp, decide (Has perm pteU), decide (Has perm pteW)⟩

theorem userPte_eq {m : Phys} {dirs : ℕ → Option ℕ} (hd : dirs e = some d)
    (hv : vpn < upn) : userPte m d vpn = entryOf m dirs (e, vpn) := by
  simp [entryOf, hv, hd]

/-- The directory entries after `page_insert`. -/
theorem Inserted.alike_pde (h : Sound s ρ pend) (hd : dirsOf s e = some d) (hva : va < utop)
    (hperm : perm.toNat < 2 ^ 12) (hi : Inserted s s' (dirsOf s) ρ ρ' e d va pp perm) (i : ℕ) :
    Alike (s.phys d i) (s'.phys d i) := by
  have hdir := h.ledger.typed.tree.dir.mp hd
  rcases eq_or_ne i (pdx va) with rfl | hne
  · obtain ⟨t, -, hpde, -⟩ := hi.pde
    by_cases hp : Has (s.phys d (pdx va)) pteP
    · rw [hpde, if_pos hp]
      exact alike_or (h.layout.wide hd ((lt_utop_iff va).mp hva)) hperm
    · exact fun h0 => absurd h0 hp
  · exact .of_eq (hi.phys d i (by rw [hdir]; simp) (fun k => by rw [hdir]; simp)
      fun h0 => hne h0.2)

/-- The page that was mapped, as the processor sees it. -/
theorem Inserted.walk (h : Sound s ρ pend) (hd : dirsOf s e = some d) (hva : va < utop)
    (hpp : pp < kernWindow) (hperm : perm.toNat < 2 ^ 12)
    (hi : Inserted s s' (dirsOf s) ρ ρ' e d va pp perm) :
    mmuWalk s'.phys d (pgnum va) = some (translationOf pp perm) := by
  have hpte : userPte s'.phys d (pgnum va) = some (page2pa pp ||| perm ||| pteP) := by
    rw [userPte_eq hd (pgnum_lt_upn hva), hi.entries, Function.update_self]
  have hwide : Has (s'.phys d (pdx va)) pteU ∧ Has (s'.phys d (pdx va)) pteW := by
    obtain ⟨t, -, hpde, -⟩ := hi.pde
    have hU : Has pteU pteU := by decide
    have hW : Has pteW pteW := by decide
    rw [hpde]
    split
    · rename_i hp
      obtain ⟨hU', hW'⟩ := h.layout.wide hd ((lt_utop_iff va).mp hva) hp
      simp [hU', hW']
    · simp [hU, hW]
  have hno : ¬ Has pteP pteU ∧ ¬ Has pteP pteW := by decide
  have hpage : ¬ Has (page2pa pp) pteU ∧ ¬ Has (page2pa pp) pteW :=
    ⟨not_has_page2pa pp (by decide), not_has_page2pa pp (by decide)⟩
  rw [mmuWalk_eq, hpte, pgnum_div, Option.map_some, frame_entry hpp hperm, translationOf]
  simp only [hwide, has_or, hno, hpage, true_and, false_or, or_false]

/-- **The other pages**, when one entry of a table has been written: directory entries say
what they said, and the kernel's tables have not changed. -/
theorem Sound.walk_of_update (h : Sound s ρ pend) (hd : dirsOf s e = some d)
    (hpde : ∀ i, Alike (s.phys d i) (s'.phys d i))
    (hkern : ∀ f, ρ f = .kern → ∀ k, s'.phys f k = s.phys f k)
    (hent : entryOf s'.phys (dirsOf s) = Function.update (entryOf s.phys (dirsOf s)) (e, n) o)
    (hv : vpn < npdentries * nptentries) (hne : vpn ≠ n) (ht : mmuWalk s.phys d vpn = some t) :
    mmuWalk s'.phys d vpn = some t := by
  by_cases hlow : vpn < upn
  · have hpte : userPte s'.phys d vpn = userPte s.phys d vpn := by
      rw [userPte_eq hd hlow, userPte_eq hd hlow, hent,
        Function.update_of_ne fun h0 => hne (Prod.mk.inj h0).2]
    rw [mmuWalk_eq] at ht ⊢
    obtain ⟨w, hw, rfl⟩ := Option.map_eq_some_iff.mp ht
    obtain ⟨-, -, hU, hW⟩ := hpde _ (pde_of_userPte hw)
    rw [hpte, hw, Option.map_some]
    simp only [hU, hW]
  · refine mmuWalk_of_alike ht (hpde _) ?_
    have hidx : vpn / nptentries < npdentries := Nat.div_lt_of_lt_mul (by rwa [Nat.mul_comm])
    rcases eq_or_ne (vpn / nptentries) (pdx uvpt) with huv | huv
    · -- through the window
      rw [huv, (h.selfEntry hd).2]
      exact hpde _
    · by_cases hp : Has (s.phys d (vpn / nptentries)) pteP
      · have hup := le_index (not_lt.mp hlow)
        have hword := h.layout.upper hd hup hidx
        rw [if_neg huv] at hword
        rw [hword] at hp ⊢
        exact .of_eq (hkern _ (h.layout.high hup hidx huv hp).1 _)
      · unfold mmuWalk at ht
        simp [hp] at ht

/-- **`page_insert` loses no translation**, unless it gives the page itself another one. -/
theorem Inserted.keeps (h : Sound s ρ pend) (hd : dirsOf s e = some d) (hva : va < utop)
    (hpp : pp < kernWindow) (hperm : perm.toNat < 2 ^ 12) (hm : MemoryOnly s s')
    (hi : Inserted s s' (dirsOf s) ρ ρ' e d va pp perm)
    (hW : W e → C e (pgnum va) → ∀ t, mmuWalk s.phys d (pgnum va) = some t →
      t = translationOf pp perm) : Keeps W C s s' := by
  have hdir := h.ledger.typed.tree.dir.mp hd
  refine fun e' d' hW' hd' => ⟨by rw [hm.sameSlots.dirsOf]; exact hd', fun vpn hv hC t ht => ?_⟩
  rcases eq_or_ne e' e with rfl | hne
  · obtain rfl := Option.some.inj (hd'.symm.trans hd)
    rcases eq_or_ne vpn (pgnum va) with rfl | hvpn
    · rw [hW hW' hC t ht]
      exact hi.walk h hd hva hpp hperm
    · have hpde := hi.alike_pde h hd hva hperm
      refine h.walk_of_update hd hpde (fun f hf k => ?_) hi.entries hv hvpn ht
      refine hi.phys f k (by rw [hf]; simp) (fun i => by rw [hf]; simp) ?_
      rintro ⟨rfl, -⟩
      rw [hdir] at hf
      cases hf
  · rw [h.walk_congr hd' (fun f hf k => hi.phys f k hf.ne_free (fun i => hf.ne_table hne) ?_) hv]
    · exact ht
    · rintro ⟨rfl, -⟩
      exact hf.ne_dir hne hdir

/-- **`page_remove` loses the translation of the page.** -/
theorem Removed.keeps (h : Sound s ρ pend) (hd : dirsOf s e = some d) (hm : MemoryOnly s s')
    (hr : Removed s s' (dirsOf s) ρ ρ' (fun _ => 0) e (pgnum va))
    (hW : W e → C e (pgnum va) → mmuWalk s.phys d (pgnum va) = none) : Keeps W C s s' := by
  refine fun e' d' hW' hd' => ⟨by rw [hm.sameSlots.dirsOf]; exact hd', fun vpn hv hC t ht => ?_⟩
  rcases eq_or_ne e' e with rfl | hne
  · obtain rfl := Option.some.inj (hd'.symm.trans hd)
    have hdir := h.ledger.typed.tree.dir.mp hd
    have hvpn : vpn ≠ pgnum va := by
      rintro rfl
      rw [hW hW' hC] at ht
      cases ht
    refine h.walk_of_update hd (fun i => .of_eq ?_) (fun f hf k => ?_) hr.entries hv hvpn ht
    · exact hr.phys d' i fun j => by rw [hdir]; simp
    · exact hr.phys f k fun j => by rw [hf]; simp
  · rw [h.walk_congr hd' (fun f hf k => hr.phys f k fun i => hf.ne_table hne) hv]
    exact ht

/-! ## The rest of what is done to address spaces -/

/-- User pages hold no tables. -/
theorem Sound.keeps_of_aloof (hs : Settled s ρ) (ha : Aloof s s') : Keeps W C s s' := by
  refine hs.keeps_of_words (fun e d _ hd => by rw [ha.slots.dirsOf]; exact hd)
    fun e _ f hf k => ?_
  rw [ha.words f]
  intro x hx
  obtain ⟨w, hw, rfl⟩ := Option.map_eq_some_iff.mp hx
  exact hf.ne_data (hs.ledger.typed.tree.role_of_entryOf hw)

/-- A page from the free list is cleared. -/
theorem Sound.readFor_takeUserPage (hs : Sound s ρ pend) (hl : s.pageFreeList = some p) {f : ℕ}
    (hf : ReadFor ρ e f) (k : ℕ) :
    ((s.takePage p).note (.userPage p)).phys f k = s.phys f k := by
  have hfp : f ≠ p := by
    rintro rfl
    exact hf.ne_free (hs.ledger.typed.free.role_of_head hl)
  simp [Kernel.note, Kernel.takePage, setPage, zeroFrame, hfp]

theorem Sound.walk_takeUserPage (hs : Sound s ρ pend) (hl : s.pageFreeList = some p)
    (hd : dirsOf s e = some d) (hv : vpn < npdentries * nptentries) :
    mmuWalk ((s.takePage p).note (.userPage p)).phys d vpn = mmuWalk s.phys d vpn :=
  hs.walk_congr hd (fun _ hf k => hs.readFor_takeUserPage hl hf k) hv

theorem Sound.keeps_of_takeUserPage (hs : Sound s ρ pend) (hl : s.pageFreeList = some p) :
    Keeps W C s ((s.takePage p).note (.userPage p)) :=
  hs.keeps_of_words (fun _ _ _ hd => hd) fun _ _ _ hf k => hs.readFor_takeUserPage hl hf k

/-- A new address space takes a page from the free list. -/
theorem Sound.keeps_of_openEnv (hs : Settled s ρ) (he : s.envFreeList = some e)
    (hl : s.pageFreeList = some p) (parentId : Word) : Keeps W C s (s.openEnv e p parentId) := by
  have hfree := hs.ledger.typed.free.role_of_head hl
  have hnl := (hs.layout.not_live_of_head he).2
  refine hs.keeps_of_words (fun e' d' _ hd' => ?_) fun e' _ f hf k => ?_
  · rw [dirsOf_openEnv, Function.update_of_ne]
    · exact hd'
    · rintro rfl
      exact hnl (live_of_dirsOf hd')
  · rw [openEnv_phys s e parentId (hs.layout.ne_kernPgdir (by rw [hfree]; simp)) f k, if_neg]
    rintro rfl
    exact hf.ne_free hfree

/-- **`env_free`** of an environment that is not in `W`. -/
theorem Sound.keeps_of_envFree (hs : Settled s ρ) (hlive : Live s e)
    (hrun : s.envFree e = .ok s') (hW : ¬ W e) : Keeps W C s s' := by
  obtain ⟨-, d, hd⟩ := hs.layout.live hlive
  have hd := dirsOf_of_pgdir hlive hd
  have hdir := hs.ledger.typed.tree.dir.mp hd
  have hne : ∀ e', W e' → e' ≠ e := by
    rintro e' hW' rfl
    exact hW hW'
  refine hs.keeps_of_words (fun e' d' hW' hd' => ?_) fun e' hW' f hf k => ?_
  · rw [dirsOf_of_envFree hrun, Function.update_of_ne (hne e' hW')]
    exact hd'
  · refine Kernel.words_of_envFree hs.ledger.typed hd hrun f k ?_ fun i => hf.ne_table (hne e' hW')
    rintro rfl
    exact hf.ne_dir (hne e' hW') hdir

end Kernel
end PmakeOs
