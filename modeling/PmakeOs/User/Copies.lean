import PmakeOs.User.Duplicate

/-!
# The loop of `fork`

After `k` rounds the child has, for every page of the parent up to `k`, what `copyOf` makes of
its entry, or nothing where there was no page for a table; and the free list is empty in that
case (`Copied`).  A page has at most twice the references that it had before, so its counter
does not wrap if there were fewer than 32768.
-/

namespace PmakeOs

open Lib Kernel

variable {s s' s₁ : Kernel} {ρ ρ' ρ₁ : ℕ → Role} {c e k : ℕ} {perm w w' : Word} {id : Word}
  {o : Option Word}

namespace User

/-! ## The frames of the copies -/

theorem frame_mapping (w : Word) (hperm : perm.toNat < 2 ^ 12) :
    frame (page2pa (frame w) ||| perm ||| pteP) = frame w := by
  rw [frame_or_of_lt _ (by decide), frame_or_of_lt _ hperm, frame_page2pa (frame_lt w)]

theorem frame_keptOf (w : Word) : frame (keptOf w) = frame w := by
  unfold keptOf
  split
  · exact frame_mapping w (by decide)
  · rfl

theorem frame_of_copyOf (h : copyOf w = some w') : frame w' = frame w := by
  unfold copyOf at h
  split_ifs at h <;>
    · obtain rfl := Option.some.inj h
      exact frame_mapping w (by decide)

/-! ## The rounds -/

/-- After `k` rounds from `s₁`. -/
structure Copied (s₁ s : Kernel) (c e k : ℕ) : Prop where
  child : ∀ v, entryOf s.phys (dirsOf s) (e, v) = none ∨ v < k ∧
    entryOf s.phys (dirsOf s) (e, v) = (entryOf s₁.phys (dirsOf s₁) (c, v)).bind copyOf
  filled : s.pageFreeList ≠ none → ∀ v < k,
    entryOf s.phys (dirsOf s) (e, v) = (entryOf s₁.phys (dirsOf s₁) (c, v)).bind copyOf
  parent : ∀ v, entryOf s.phys (dirsOf s) (c, v) =
    if v < k then (entryOf s₁.phys (dirsOf s₁) (c, v)).map keptOf
    else entryOf s₁.phys (dirsOf s₁) (c, v)
  other : ∀ x, x.1 ≠ c → x.1 ≠ e →
    entryOf s.phys (dirsOf s) x = entryOf s₁.phys (dirsOf s₁) x

theorem Copied.refl (hblank : ∀ v, entryOf s.phys (dirsOf s) (e, v) = none) :
    Copied s s c e 0 :=
  ⟨fun v => Or.inl (hblank v), fun _ _ hv => absurd hv (Nat.not_lt_zero _),
    fun _ => (if_neg (Nat.not_lt_zero _)).symm, fun _ _ _ => rfl⟩

/-- **One more round.** -/
theorem Copied.step (h : Copied s₁ s c e k) (hs : Settled s ρ) (hne : e ≠ c)
    (hf : Forks s ρ s' ρ' c e k o) : Copied s₁ s' c e (k + 1) := by
  have hcur : entryOf s.phys (dirsOf s) (c, k) = entryOf s₁.phys (dirsOf s₁) (c, k) := by
    rw [h.parent k, if_neg (Nat.lt_irrefl k)]
  have hchild : ∀ v, entryOf s'.phys (dirsOf s') (e, v) =
      if v = k then o else entryOf s.phys (dirsOf s) (e, v) := by
    intro v
    rw [hf.entries, Function.update_of_ne fun h0 => hne (Prod.mk.inj h0).1]
    by_cases hv : v = k
    · rw [hv, Function.update_self, if_pos rfl]
    · rw [Function.update_of_ne fun h0 => hv (Prod.mk.inj h0).2, if_neg hv]
  have hcopy := hf.copy
  rw [hcur] at hcopy
  refine ⟨fun v => ?_, fun hl v hv => ?_, fun v => ?_, fun x hxc hxe => ?_⟩
  · rw [hchild v]
    split
    · rename_i hv
      rw [hv]
      rcases hcopy with hc | ⟨hnone, -⟩
      · exact Or.inr ⟨Nat.lt_succ_self k, hc⟩
      · exact Or.inl hnone
    · exact (h.child v).imp id fun h0 => ⟨Nat.lt_succ_of_lt h0.1, h0.2⟩
  · have hl' : s.pageFreeList ≠ none := fun h0 => hl (hf.retains.pageFreeList hs h0)
    rw [hchild v]
    split
    · rename_i hvk
      rw [hvk]
      exact hcopy.resolve_right fun h0 => hl' h0.2
    · rename_i hvk
      exact h.filled hl' v (by omega)
  · rw [hf.entries, hcur]
    by_cases hv : v = k
    · rw [hv, Function.update_self, if_pos (Nat.lt_succ_self k)]
    · rw [Function.update_of_ne fun h0 => hv (Prod.mk.inj h0).2,
        Function.update_of_ne fun h0 => hne (Prod.mk.inj h0).1.symm, h.parent v]
      have hiff : v < k ↔ v < k + 1 := by omega
      simp only [hiff]
  · rw [hf.entries, Function.update_of_ne fun h0 => hxc (congrArg Prod.fst h0),
      Function.update_of_ne fun h0 => hxe (congrArg Prod.fst h0)]
    exact h.other x hxc hxe

/-- **The references have not more than doubled**: the entries of the child are copies of
those of the parent. -/
theorem Copied.refCount_le (h : Copied s₁ s c e k) (hs : Settled s₁ ρ₁) (q : ℕ) :
    refCount s.phys (dirsOf s) q ≤ 2 * refCount s₁.phys (dirsOf s₁) q := by
  have hframe : ∀ {x : Option Word}, (x.map keptOf).map frame = x.map frame := by
    intro x
    cases x with
    | none => rfl
    | some w => exact congrArg some (frame_keptOf w)
  have hchild : occurrences (userPages.filter fun x => x.1 = e)
      (fun x => (entryOf s.phys (dirsOf s) x).map frame) q ≤
      refCount s₁.phys (dirsOf s₁) q := by
    refine occurrences_le_of_injOn (fun x => (c, x.2)) (fun x hx hq => ?_) fun x hx y hy hxy => ?_
    · obtain ⟨hmem, rfl⟩ := Finset.mem_filter.mp hx
      obtain ⟨w', hw', rfl⟩ := Option.map_eq_some_iff.mp hq
      rcases h.child x.2 with hnone | ⟨-, hcopy⟩
      · exact nomatch hnone.symm.trans hw'
      obtain ⟨w, hw, hcw⟩ := Option.bind_eq_some_iff.mp (hcopy.symm.trans hw')
      obtain ⟨hlt, d, hd, -⟩ := exists_of_entryOf hw
      refine ⟨mem_userPages.mpr ⟨hs.ledger.typed.tree.owner_lt hd, hlt⟩, ?_⟩
      rw [hw, Option.map_some, frame_of_copyOf hcw]
    · have hx' := (Finset.mem_filter.mp (Finset.mem_coe.mp hx)).2
      have hy' := (Finset.mem_filter.mp (Finset.mem_coe.mp hy)).2
      exact Prod.ext (hx'.trans hy'.symm) (Prod.mk.inj hxy).2
  have hrest : occurrences (userPages.filter fun x => ¬ x.1 = e)
      (fun x => (entryOf s.phys (dirsOf s) x).map frame) q ≤
      refCount s₁.phys (dirsOf s₁) q := by
    refine occurrences_le_of_injOn (fun x => x) (fun x hx hq => ?_) fun x _ y _ hxy => hxy
    obtain ⟨hmem, hxe⟩ := Finset.mem_filter.mp hx
    refine ⟨hmem, ?_⟩
    by_cases hxc : x.1 = c
    · have hx' : x = (c, x.2) := Prod.ext hxc rfl
      rw [hx', h.parent x.2] at hq
      rw [hx', ← hq]
      split
      · rw [hframe]
      · rfl
    · rw [← h.other x hxc hxe]
      exact hq
  have hsplit := occurrences_eq_filter_add (S := userPages)
    (f := fun x => (entryOf s.phys (dirsOf s) x).map frame) (k := q) (fun x => x.1 = e)
  rw [refCount, hsplit]
  omega

/-- **The loop of `fork`**, if it comes to its end. -/
theorem Family.loop (hf : Family s c e id) (hs : Settled s ρ)
    (hblank : ∀ v, entryOf s.phys (dirsOf s) (e, v) = none)
    (hcount : ∀ q, refCount s.phys (dirsOf s) q < 2 ^ 15)
    (hrun : (List.range ustackPages).foldlM (User.forkPage id) s = .ok s') :
    ∃ ρ', Retains s ρ s' ρ' ∧ Copied s s' c e ustackPages := by
  have hinv := foldlM_range_invariant (I := fun k b => ∃ ρ', Retains s ρ b ρ' ∧ Copied s b c e k)
    ⟨ρ, .refl hs, .refl hblank⟩ (fun k hk b b' hI hround => ?_) hrun
  · exact hinv
  obtain ⟨ρ', hret, hcop⟩ := hI
  have hku : k < upn := hk.trans (by decide)
  have hfree : entryOf b.phys (dirsOf b) (e, k) = none :=
    (hcop.child k).resolve_right fun h0 => absurd h0.1 (Nat.lt_irrefl k)
  obtain ⟨ρ'', o, hforks⟩ := (hf.of_memoryOnly hret.memory).forkPage hret.settled hku hfree
    (fun w _ => by
      have h1 := hcop.refCount_le hs (frame w)
      have h2 := hcount (frame w)
      omega) hround
  exact ⟨ρ'', hret.trans hforks.retains, hcop.step hret.settled hf.ne hforks⟩

/-! ## Enough memory -/

/-- There are `n` free pages. -/
def Supply (ρ : ℕ → Role) (n : ℕ) : Prop := ∃ F : Finset ℕ, n ≤ F.card ∧ ∀ f ∈ F, ρ f = .free

theorem Supply.mono {m n : ℕ} (h : Supply ρ n) (hmn : m ≤ n) : Supply ρ m := by
  obtain ⟨F, hF, hfree⟩ := h
  exact ⟨F, hmn.trans hF, hfree⟩

/-- One page is taken. -/
theorem Supply.use {n : ℕ} (h : Supply ρ (n + 1))
    (huse : ∃ t, ∀ f, ρ f = .free → f ≠ t → ρ' f = .free) : Supply ρ' n := by
  obtain ⟨F, hF, hfree⟩ := h
  obtain ⟨t, ht⟩ := huse
  have hcard := Finset.pred_card_le_card_erase (s := F) (a := t)
  refine ⟨F.erase t, by omega, fun f hf => ?_⟩
  rw [Finset.mem_erase] at hf
  exact ht f (hfree f hf.2) hf.1

theorem Supply.two {n : ℕ} (h : Supply ρ (n + 2)) : ∃ q r, ρ q = .free ∧ ρ r = .free ∧ q ≠ r := by
  obtain ⟨F, hF, hfree⟩ := h
  obtain ⟨q, hq, r, hr, hqr⟩ := Finset.one_lt_card.mp (show 1 < F.card by omega)
  exact ⟨q, r, hfree q hq, hfree r hr, hqr⟩

/-- The pages from `k` on, below `USTACKTOP`, that environment `c` has mapped. -/
def mappedFrom (s : Kernel) (c k : ℕ) : Finset ℕ :=
  (Finset.range ustackPages).filter fun v => k ≤ v ∧ entryOf s.phys (dirsOf s) (c, v) ≠ none

theorem card_mappedFrom (s : Kernel) (c : ℕ) (hk : k < ustackPages) :
    (mappedFrom s c k).card =
      (mappedFrom s c (k + 1)).card + if entryOf s.phys (dirsOf s) (c, k) = none then 0 else 1 := by
  by_cases hnone : entryOf s.phys (dirsOf s) (c, k) = none
  · rw [if_pos hnone, Nat.add_zero]
    refine congrArg Finset.card (Finset.filter_congr fun v _ => ?_)
    refine and_congr_left fun hv => ⟨fun h0 => ?_, fun h0 => by omega⟩
    have hne : k ≠ v := by
      rintro rfl
      exact hv hnone
    omega
  · have hins : mappedFrom s c k = insert k (mappedFrom s c (k + 1)) := by
      ext v
      simp only [mappedFrom, Finset.mem_insert, Finset.mem_filter, Finset.mem_range]
      constructor
      · rintro ⟨hlt, hle, hv⟩
        rcases eq_or_ne v k with rfl | hne
        · exact Or.inl rfl
        · exact Or.inr ⟨hlt, by omega, hv⟩
      · rintro (rfl | ⟨hlt, hle, hv⟩)
        · exact ⟨hk, le_rfl, hnone⟩
        · exact ⟨hlt, by omega, hv⟩
    have hnot : k ∉ mappedFrom s c (k + 1) := by
      simp [mappedFrom]
    rw [if_neg hnone, hins, Finset.card_insert_of_notMem hnot]

/-- One round, which takes a page of the supply only if the page of the parent is mapped. -/
theorem Family.round_ok {b : Kernel} (hf : Family s c e id) (hs : Settled s ρ)
    (hcount : ∀ q, refCount s.phys (dirsOf s) q < 2 ^ 15) (hk : k < ustackPages)
    (hret : Retains s ρ b ρ₁) (hcop : Copied s b c e k)
    (hsup : Supply ρ₁ ((mappedFrom s c k).card + 2)) :
    ∃ b' ρ', User.forkPage id b k = .ok b' ∧ Retains s ρ b' ρ' ∧ Copied s b' c e (k + 1) ∧
      Supply ρ' ((mappedFrom s c (k + 1)).card + 2) := by
  have hku : k < upn := hk.trans (by decide)
  have hempty : entryOf b.phys (dirsOf b) (e, k) = none :=
    (hcop.child k).resolve_right fun h0 => absurd h0.1 (Nat.lt_irrefl k)
  have hbound : ∀ w, entryOf b.phys (dirsOf b) (c, k) = some w →
      refCount b.phys (dirsOf b) (frame w) + 1 < 2 ^ 16 := by
    intro w _
    have h1 := hcop.refCount_le hs (frame w)
    have h2 := hcount (frame w)
    omega
  have hfb := hf.of_memoryOnly hret.memory
  have hcur := hcop.parent k
  rw [if_neg (Nat.lt_irrefl k)] at hcur
  have hcard := card_mappedFrom s c hk
  by_cases hnone : entryOf b.phys (dirsOf b) (c, k) = none
  · -- nothing is done for a page that is not mapped
    have hskip := forkPage_of_none hret.settled hfb.loaded hku hnone id
    rw [← hcur, if_pos hnone] at hcard
    have hforks : Forks b ρ₁ b ρ₁ c e k none :=
      .same hret.settled hempty (by rw [hnone, Option.map_none]) rfl
        (Or.inl (by rw [hnone, Option.bind_none]))
    exact ⟨b, ρ₁, hskip, hret, hcop.step hret.settled hf.ne hforks, hsup.mono (by omega)⟩
  · obtain ⟨q, r, hq, hr, hqr⟩ := hsup.two
    obtain ⟨b', hround⟩ := hfb.forkPage_ok hret.settled hku hempty hbound hq hr hqr
    obtain ⟨ρ', o, hforks⟩ := hfb.forkPage hret.settled hku hempty hbound hround
    rw [← hcur, if_neg hnone] at hcard
    exact ⟨b', ρ', hround, hret.trans hforks.retains, hcop.step hret.settled hf.ne hforks,
      (hsup.mono (by omega)).use hforks.uses⟩

/-- **The loop comes to its end** if there is a free page for every page of the parent, and
two more, which are left. -/
theorem Family.loop_ok (hf : Family s c e id) (hs : Settled s ρ)
    (hblank : ∀ v, entryOf s.phys (dirsOf s) (e, v) = none)
    (hcount : ∀ q, refCount s.phys (dirsOf s) q < 2 ^ 15)
    (hfree : Supply ρ ((mappedFrom s c 0).card + 2)) :
    ∃ s' ρ', (List.range ustackPages).foldlM (User.forkPage id) s = .ok s' ∧
      Retains s ρ s' ρ' ∧ Copied s s' c e ustackPages ∧ Supply ρ' 2 := by
  obtain ⟨s', hrun, ρ', hret, hcop, hsup⟩ := foldlM_range_ok (f := User.forkPage id)
    (I := fun k b => ∃ ρ', Retains s ρ b ρ' ∧ Copied s b c e k ∧
      Supply ρ' ((mappedFrom s c k).card + 2))
    ⟨ρ, .refl hs, .refl hblank, hfree⟩
    (fun k hk b ⟨_, hret, hcop, hsup⟩ =>
      let ⟨b', ρ', h⟩ := hf.round_ok hs hcount hk hret hcop hsup
      ⟨b', h.1, ρ', h.2⟩)
  exact ⟨s', ρ', hrun, hret, hcop, hsup.mono (Nat.le_add_left _ _)⟩

end User
end PmakeOs
