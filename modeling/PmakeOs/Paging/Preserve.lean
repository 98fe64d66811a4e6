import PmakeOs.Paging.Typing

/-!
# The typing is kept by every store

Each store of `Paging.Steps` leaves memory typed, by the same typing or by one
that differs at the frame that changed hands.  A data frame is the hub: a frame
leaves the free list as a data frame, becomes a table or a directory from there,
and goes back the same way.

* `Tree.setTable`, `Tree.orDir` --- stores that leave every role alone;
* `Tree.retag` --- frames that are neither tables nor directories may change
  hands and be overwritten, as long as mapped frames stay data frames;
* `Tree.enterTable`, `Tree.leaveTable` --- a data frame becomes a table, and back;
* `Tree.enterDir`, `Tree.leaveDir` --- the same for a directory;
* `FreeTyped.takePage`, `FreeTyped.pushFree` --- the free list.

Beside each one stands what it does to the map `entryOf`.
-/

namespace PmakeOs

open Lib

namespace Kernel

variable {s s' : Kernel} {dirs : ℕ → Option ℕ} {ρ ρ' : ℕ → Role} {e d i j t p q : ℕ}
  {w perm : Word} {m m' : Phys}

/-! ## Links -/

@[simp] theorem links_setPage (s : Kernel) (p : ℕ) (v : PageInfo) :
    (s.setPage p v).links = Function.update s.links p v.ppLink := by
  funext x
  by_cases hx : x = p
  · subst hx
    simp [links, setPage]
  · simp [links, setPage, hx]

theorem links_setPage_of_eq (s : Kernel) (p : ℕ) (v : PageInfo) (hv : v.ppLink = s.links p) :
    (s.setPage p v).links = s.links := by
  rw [links_setPage, hv, Function.update_eq_self]

@[simp] theorem links_incRef (s : Kernel) (p : ℕ) : (s.incRef p).links = s.links :=
  links_setPage_of_eq s p _ rfl

@[simp] theorem links_decRef (s : Kernel) (p : ℕ) : (s.decRef p).links = s.links :=
  links_setPage_of_eq s p _ rfl

@[simp] theorem links_takePage (s : Kernel) (p : ℕ) :
    (s.takePage p).links = Function.update s.links p none :=
  links_setPage _ p _

@[simp] theorem links_pushFree (s : Kernel) (p : ℕ) :
    (s.pushFree p).links = Function.update s.links p s.pageFreeList :=
  links_setPage s p _

/-! ## The free list -/

/-- The list does not see changes of role between frames in use. -/
theorem FreeTyped.congr (h : FreeTyped s ρ) (hl : s'.links = s.links)
    (hf : s'.pageFreeList = s.pageFreeList) (hρ : ∀ f, ρ' f = .free ↔ ρ f = .free) :
    FreeTyped s' ρ' := by
  obtain ⟨l, ht, hmem⟩ := h.list
  refine ⟨⟨l, ?_, fun p => (hmem p).trans (hρ p).symm⟩, fun {p} hp => ?_⟩
  · rw [hl, hf]
    exact ht
  · rw [hl]
    exact h.link fun hfree => hp ((hρ p).mpr hfree)

/-- The head of the list has the role of a free frame. -/
theorem FreeTyped.role_of_head (h : FreeTyped s ρ) (hl : s.pageFreeList = some p) :
    ρ p = .free := by
  obtain ⟨l, ht, hmem⟩ := h.list
  rw [hl] at ht
  obtain ⟨l', rfl, -⟩ := ht.exists_cons
  exact (hmem p).mp List.mem_cons_self

/-- What `page_alloc` takes is the head of the free list. -/
theorem Typed.eq_of_pageAlloc (h : Typed s dirs ρ)
    (hrun : s.pageAlloc allocZero = .ok (some p, s')) :
    s.pageFreeList = some p ∧ s' = s.takePage p := by
  cases hl : s.pageFreeList with
  | none =>
    rw [pageAlloc_of_nil hl] at hrun
    exact nomatch (Prod.mk.inj (Except.ok.inj hrun)).1
  | some q =>
    have hfree := h.free.role_of_head hl
    have hlt := h.lt (p := q) (by rw [hfree]; simp)
    rw [pageAlloc_of_cons hl hlt (lt_of_lt_of_le hlt h.window)] at hrun
    obtain ⟨hq, rfl⟩ := Prod.mk.inj (Except.ok.inj hrun)
    obtain rfl := Option.some.inj hq
    exact ⟨rfl, rfl⟩

/-- Taking the head. -/
theorem FreeTyped.takePage (h : FreeTyped s ρ) (hl : s.pageFreeList = some p) :
    FreeTyped (s.takePage p) (Function.update ρ p .data) := by
  obtain ⟨l, ht, hmem⟩ := h.list
  rw [hl] at ht
  have hnodup := ht.nodup
  obtain ⟨l', rfl, ht'⟩ := ht.pop
  refine ⟨⟨l', ?_, fun x => ?_⟩, fun {x} hx => ?_⟩
  · rw [links_takePage]
    exact ht'
  · by_cases hx : x = p
    · subst hx
      rw [Function.update_self]
      exact ⟨fun hx => absurd hx (List.nodup_cons.mp hnodup).1, fun hx => nomatch hx⟩
    · rw [Function.update_of_ne hx, ← hmem x, List.mem_cons]
      exact ⟨Or.inr, fun h => h.resolve_left hx⟩
  · rw [links_takePage]
    by_cases hxp : x = p
    · subst hxp
      exact Function.update_self _ _ _
    · rw [Function.update_of_ne hxp] at hx ⊢
      exact h.link hx

/-- Pushing a frame that is not free. -/
theorem FreeTyped.pushFree (h : FreeTyped s ρ) (hq : ρ q ≠ .free) :
    FreeTyped (s.pushFree q) (Function.update ρ q .free) := by
  obtain ⟨l, ht, hmem⟩ := h.list
  have hql : q ∉ l := fun hql => hq ((hmem q).mp hql)
  refine ⟨⟨q :: l, ?_, fun x => ?_⟩, fun {x} hx => ?_⟩
  · rw [links_pushFree]
    exact ht.push hql
  · by_cases hx : x = q
    · subst hx
      simp
    · rw [Function.update_of_ne hx, List.mem_cons, hmem x]
      exact ⟨fun h => h.resolve_left hx, Or.inr⟩
  · have hxq : x ≠ q := by
      rintro rfl
      exact hx (Function.update_self _ _ _)
    rw [links_pushFree, Function.update_of_ne hxq]
    rw [Function.update_of_ne hxq] at hx
    exact h.link hx

/-! ## Stores into tables and directories -/

/-- A store of zero, or of a present entry for a data frame, into a table. -/
theorem Tree.setTable (h : Tree s.phys dirs ρ) (ht : ρ t = .table e i)
    (hw : w = 0#32 ∨ Has w pteP ∧ ρ (frame w) = .data) :
    Tree (s.setWord t j w).phys dirs ρ := by
  have hdirs : ∀ e' d' i', dirs e' = some d' → (s.setWord t j w).phys d' i' = s.phys d' i' := by
    intro e' d' i' hd'
    have hne : d' ≠ t := ne_of_role ρ (by rw [h.dir.mp hd', ht]; simp)
    simp [setWord, hne]
  constructor
  · exact h.owner_lt
  · exact h.dir
  · intro e' d' i' hd' hi' hp'
    rw [hdirs e' d' i' hd'] at hp' ⊢
    exact h.table hd' hi' hp'
  · intro e' i' t' ht'
    obtain ⟨d', hd', hi', hp', hf'⟩ := h.table_back ht'
    refine ⟨d', hd', hi', ?_⟩
    rw [hdirs e' d' i' hd']
    exact ⟨hp', hf'⟩
  · intro e' i' t' j' ht' hj'
    by_cases hx : t' = t ∧ j' = j
    · simp only [setWord, hx, and_self, if_true]
      exact hw
    · simp only [setWord, hx, if_false]
      exact h.entry ht' hj'

/-- What or-ing flags into a directory entry does to the words of memory. -/
theorem phys_orDir (s : Kernel) (d i : ℕ) (perm : Word) (d' i' : ℕ) :
    (s.setWord d i (s.phys d i ||| perm)).phys d' i' =
      if d' = d ∧ i' = i then s.phys d' i' ||| perm else s.phys d' i' := by
  by_cases hx : d' = d ∧ i' = i
  · obtain ⟨rfl, rfl⟩ := hx
    simp [setWord]
  · simp [setWord, hx]

/-- Or-ing flags into a present directory entry keeps its frame and leaves it
present. -/
theorem orDir_entry (hp : Has (s.phys d i) pteP) (hperm : perm.toNat < 2 ^ 12) (d' i' : ℕ) :
    (Has ((s.setWord d i (s.phys d i ||| perm)).phys d' i') pteP ↔ Has (s.phys d' i') pteP) ∧
      frame ((s.setWord d i (s.phys d i ||| perm)).phys d' i') = frame (s.phys d' i') := by
  rw [phys_orDir]
  by_cases hx : d' = d ∧ i' = i
  · obtain ⟨rfl, rfl⟩ := hx
    rw [if_pos ⟨rfl, rfl⟩, frame_or_of_lt _ hperm, has_or]
    exact ⟨by simp [hp], rfl⟩
  · rw [if_neg hx]
    exact ⟨Iff.rfl, rfl⟩

theorem Tree.orDir (h : Tree s.phys dirs ρ) (hd : dirs e = some d) (hp : Has (s.phys d i) pteP)
    (hperm : perm.toNat < 2 ^ 12) :
    Tree (s.setWord d i (s.phys d i ||| perm)).phys dirs ρ := by
  have hent := orDir_entry (s := s) (d := d) (i := i) hp hperm
  constructor
  · exact h.owner_lt
  · exact h.dir
  · intro e' d' i' hd' hi' hp'
    rw [(hent d' i').1] at hp'
    rw [(hent d' i').2]
    exact h.table hd' hi' hp'
  · intro e' i' t' ht'
    obtain ⟨d', hd', hi', hp', hf'⟩ := h.table_back ht'
    exact ⟨d', hd', hi', (hent d' i').1.mpr hp', (hent d' i').2.trans hf'⟩
  · intro e' i' t' j' ht' hj'
    have hne : t' ≠ d := ne_of_role ρ (by rw [ht', h.dir.mp hd]; simp)
    rw [phys_orDir, if_neg (fun hx => hne hx.1)]
    exact h.entry ht' hj'

theorem Tree.entryOf_orDir (h : Tree s.phys dirs ρ) (hd : dirs e = some d)
    (hp : Has (s.phys d i) pteP) (hperm : perm.toNat < 2 ^ 12) :
    entryOf (s.setWord d i (s.phys d i ||| perm)).phys dirs = entryOf s.phys dirs := by
  refine entryOf_congr (fun e' d' i' _ _ => orDir_entry hp hperm d' i') ?_
  intro e' d' i' j' hd' hi' hp' _
  have htab := h.table hd' hi' hp'
  have hne : frame (s.phys d' i') ≠ d := ne_of_role ρ (by rw [htab, h.dir.mp hd]; simp)
  rw [phys_orDir, if_neg (fun hx => hne hx.1)]

/-! ## Frames that are neither tables nor directories -/

/-- **Only the nodes matter.**  Memory may change off the directories and tables,
and frames off them may change hands, as long as a mapped frame stays a data
frame. -/
theorem Tree.retag (h : Tree m dirs ρ)
    (hm : ∀ f, Role.IsNode (ρ f) → ∀ k, m' f k = m f k)
    (hρ : ∀ f, Role.IsNode (ρ f) ∨ Role.IsNode (ρ' f) → ρ' f = ρ f)
    (hdata : ∀ e i t j, ρ t = .table e i → j < nptentries → Has (m t j) pteP →
      ρ' (frame (m t j)) = .data) : Tree m' dirs ρ' := by
  have hkeep : ∀ f, Role.IsNode (ρ f) → ρ' f = ρ f := fun f hf => hρ f (Or.inl hf)
  have hback : ∀ f r, Role.IsNode r → ρ' f = r → ρ f = r := by
    intro f r hr hf
    rw [← hf, hρ f (Or.inr (by rw [hf]; exact hr))]
  have hdirs : ∀ e' d', dirs e' = some d' → Role.IsNode (ρ d') := by
    intro e' d' hd'
    rw [h.dir.mp hd']
    exact Role.isNode_dir e'
  constructor
  · exact h.owner_lt
  · intro e' d'
    refine ⟨fun hd' => ?_, fun hd' => h.dir.mpr (hback d' _ (Role.isNode_dir e') hd')⟩
    rw [hkeep d' (hdirs e' d' hd')]
    exact h.dir.mp hd'
  · intro e' d' i' hd' hi' hp'
    rw [hm d' (hdirs e' d' hd')] at hp' ⊢
    have htab := h.table hd' hi' hp'
    rw [hkeep _ (by rw [htab]; exact Role.isNode_table e' i')]
    exact htab
  · intro e' i' t' ht'
    obtain ⟨d', hd', hi', hp', hf'⟩ := h.table_back (hback t' _ (Role.isNode_table e' i') ht')
    refine ⟨d', hd', hi', ?_⟩
    rw [hm d' (hdirs e' d' hd')]
    exact ⟨hp', hf'⟩
  · intro e' i' t' j' ht' hj'
    have ht := hback t' _ (Role.isNode_table e' i') ht'
    rw [hm t' (by rw [ht]; exact Role.isNode_table e' i')]
    rcases h.entry ht hj' with h0 | ⟨hpr, -⟩
    · exact Or.inl h0
    · exact Or.inr ⟨hpr, hdata e' i' t' j' ht hj' hpr⟩

theorem Tree.entryOf_retag (h : Tree m dirs ρ)
    (hm : ∀ f, Role.IsNode (ρ f) → ∀ k, m' f k = m f k) :
    entryOf m' dirs = entryOf m dirs := by
  refine entryOf_congr (fun e' d' i' hd' _ => ?_) (fun e' d' i' j' hd' hi' hp' _ => ?_)
  · rw [hm d' (by rw [h.dir.mp hd']; exact Role.isNode_dir e')]
    exact ⟨Iff.rfl, rfl⟩
  · exact hm _ (by rw [h.table hd' hi' hp']; exact Role.isNode_table e' i') j'

/-- A table entry is a value of the map. -/
theorem Tree.entryOf_of_table (h : Tree m dirs ρ) (ht : ρ t = .table e i) (hj : j < nptentries)
    (hp : Has (m t j) pteP) : entryOf m dirs (e, i * nptentries + j) = some (m t j) := by
  obtain ⟨d, hd, hi, hpde, hfr⟩ := h.table_back ht
  rw [entryOf_of_present m hd hi hpde hj, hfr, if_pos hp]

/-- A frame that is counted nowhere is in no table. -/
theorem Tree.frame_ne_of_refCount (h : Tree m dirs ρ) (hq : refCount m dirs q = 0)
    (ht : ρ t = .table e i) (hj : j < nptentries) (hp : Has (m t j) pteP) :
    frame (m t j) ≠ q := by
  obtain ⟨d, hd, hi, -, -⟩ := h.table_back ht
  intro hfr
  have hmem : (e, i * nptentries + j) ∈ userPages := by
    rw [mem_userPages]
    exact ⟨h.owner_lt hd, pageNo_lt hi hj⟩
  refine occurrences_eq_zero_iff.mp hq _ hmem ?_
  rw [h.entryOf_of_table ht hj hp, Option.map_some, hfr]

/-- **A store into a table moves one pointer**, from the frame the old entry
points to, if any, to the frame the new one points to. -/
theorem Tree.refCount_setTable (h : Tree s.phys dirs ρ) (ht : ρ t = .table e i)
    (hj : j < nptentries) (w : Word) (q : ℕ) :
    refCount (s.setWord t j w).phys dirs q +
        (if Has (s.phys t j) pteP ∧ frame (s.phys t j) = q then 1 else 0) =
      refCount s.phys dirs q + (if Has w pteP ∧ frame w = q then 1 else 0) := by
  obtain ⟨d, hd, hi, hpde, hfr⟩ := h.table_back ht
  have hmem : (e, i * nptentries + j) ∈ userPages := by
    rw [mem_userPages]
    exact ⟨h.owner_lt hd, pageNo_lt hi hj⟩
  have hat : entryOf s.phys dirs (e, i * nptentries + j) =
      if Has (s.phys t j) pteP then some (s.phys t j) else none := by
    rw [entryOf_of_present _ hd hi hpde hj, hfr]
  have hmap : ∀ v : Word, (Option.map frame (if Has v pteP then some v else none) = some q) ↔
      (Has v pteP ∧ frame v = q) := by
    intro v
    by_cases hv : Has v pteP <;> simp [hv]
  have hmove := refCount_update hmem (h.entryOf_setTable ht hj w) q
  simp only [hat, hmap] at hmove
  exact hmove

/-- Taking a free frame as a data frame. -/
theorem Tree.takeData (h : Tree s.phys dirs ρ) (hp : ρ p = .free) :
    Tree (s.takePage p).phys dirs (Function.update ρ p .data) := by
  have hne : ∀ f, ρ f ≠ .free → f ≠ p := by
    rintro f hf rfl
    exact hf hp
  refine h.retag (fun f hf k => ?_) (fun f hf => ?_) (fun e' i' t' j' ht' hj' hpr => ?_)
  · have hfp : f ≠ p := hne f (fun h0 => by rw [h0] at hf; exact hf)
    simp [takePage, zeroFrame, setPage, hfp]
  · refine Function.update_of_ne ?_ _ _
    rintro rfl
    rw [hp, Function.update_self] at hf
    exact hf.elim id id
  · rcases h.entry ht' hj' with h0 | ⟨-, hdata⟩
    · rw [h0] at hpr
      exact absurd hpr (not_has_zero _)
    · rw [Function.update_of_ne (hne _ (by rw [hdata]; simp))]
      exact hdata

theorem Tree.entryOf_takePage (h : Tree s.phys dirs ρ) (hp : ρ p = .free) :
    entryOf (s.takePage p).phys dirs = entryOf s.phys dirs := by
  refine h.entryOf_retag fun f hf k => ?_
  have hfp : f ≠ p := by
    rintro rfl
    rw [hp] at hf
    exact hf
  simp [takePage, zeroFrame, setPage, hfp]

/-- A data frame that nothing maps may be given up. -/
theorem Tree.dropData (h : Tree m dirs ρ) (hq : ρ q = .data) (hc : refCount m dirs q = 0)
    {r : Role} (hr : ¬ Role.IsNode r) : Tree m dirs (Function.update ρ q r) := by
  refine h.retag (fun _ _ _ => rfl) (fun f hf => ?_) (fun e' i' t' j' ht' hj' hpr => ?_)
  · refine Function.update_of_ne ?_ _ _
    rintro rfl
    rw [hq, Function.update_self] at hf
    exact hf.elim id hr
  · rcases h.entry ht' hj' with h0 | ⟨-, hdata⟩
    · rw [h0] at hpr
      exact absurd hpr (not_has_zero _)
    · rw [Function.update_of_ne (h.frame_ne_of_refCount hc ht' hj' hpr)]
      exact hdata

/-! ## Tables -/

/-- A data frame that nothing maps and that holds zeros becomes a table. -/
theorem Tree.enterTable (h : Tree s.phys dirs ρ) (hd : dirs e = some d) (hi : i < pdx utop)
    (habs : ¬ Has (s.phys d i) pteP) (hp : ρ p = .data) (hc : refCount s.phys dirs p = 0)
    (hz : ∀ k, s.phys p k = 0#32) (hw : Has w pteP) (hf : frame w = p) :
    Tree (s.setWord d i w).phys dirs (Function.update ρ p (.table e i)) := by
  have hword : ∀ f k, ¬ (f = d ∧ k = i) → (s.setWord d i w).phys f k = s.phys f k := by
    intro f k hfk
    simp [setWord, hfk]
  have hset : (s.setWord d i w).phys d i = w := by simp [setWord]
  have hnp : ∀ x, ρ x ≠ .data → x ≠ p := fun x hx hxp => hx (by rw [hxp]; exact hp)
  have hdirp : ∀ e' d', dirs e' = some d' → d' ≠ p :=
    fun e' d' hd' => hnp d' (by rw [h.dir.mp hd']; simp)
  constructor
  · exact h.owner_lt
  · intro e' d'
    by_cases hdp : d' = p
    · subst hdp
      rw [Function.update_self]
      constructor
      · intro hd'
        exact absurd rfl (hdirp e' d' hd')
      · intro h0
        cases h0
    · rw [Function.update_of_ne hdp]
      exact h.dir
  · intro e' d' i' hd' hi' hp'
    by_cases hx : d' = d ∧ i' = i
    · obtain ⟨rfl, rfl⟩ := hx
      have he : e' = e := Role.dir.inj ((h.dir.mp hd').symm.trans (h.dir.mp hd))
      rw [hset, hf, Function.update_self, he]
    · rw [hword d' i' hx] at hp' ⊢
      have htab := h.table hd' hi' hp'
      rw [Function.update_of_ne (hnp _ (by rw [htab]; simp))]
      exact htab
  · intro e' i' t' ht'
    by_cases htp : t' = p
    · subst htp
      rw [Function.update_self] at ht'
      obtain ⟨rfl, rfl⟩ := Role.table.inj ht'
      refine ⟨d, hd, hi, ?_⟩
      rw [hset]
      exact ⟨hw, hf⟩
    · rw [Function.update_of_ne htp] at ht'
      obtain ⟨d', hd', hi', hp', hf'⟩ := h.table_back ht'
      -- the entry that was stored was not present before
      have hx : ¬ (d' = d ∧ i' = i) := by
        rintro ⟨rfl, rfl⟩
        exact habs hp'
      refine ⟨d', hd', hi', ?_⟩
      rw [hword d' i' hx]
      exact ⟨hp', hf'⟩
  · intro e' i' t' j' ht' hj'
    by_cases htp : t' = p
    · subst htp
      rw [hword t' j' (fun hx => hdirp e d hd hx.1.symm), hz]
      exact Or.inl rfl
    · rw [Function.update_of_ne htp] at ht'
      have htd : t' ≠ d := ne_of_role ρ (by rw [ht', h.dir.mp hd]; simp)
      rw [hword t' j' (fun hx => htd hx.1)]
      rcases h.entry ht' hj' with h0 | ⟨hpr, hdata⟩
      · exact Or.inl h0
      · refine Or.inr ⟨hpr, ?_⟩
        rw [Function.update_of_ne (h.frame_ne_of_refCount hc ht' hj' hpr)]
        exact hdata

theorem Tree.entryOf_enterTable (h : Tree s.phys dirs ρ) (hd : dirs e = some d)
    (habs : ¬ Has (s.phys d i) pteP) (hp : ρ p = .data)
    (hz : ∀ k, s.phys p k = 0#32) (hf : frame w = p) :
    entryOf (s.setWord d i w).phys dirs = entryOf s.phys dirs := by
  funext x
  obtain ⟨e', vpn⟩ := x
  by_cases hlt : vpn < upn
  · cases hd' : dirs e' with
    | none => simp [entryOf, hd']
    | some d' =>
      have hdp : p ≠ d := ne_of_role ρ (by rw [hp, h.dir.mp hd]; simp)
      by_cases hx : d' = d ∧ vpn / nptentries = i
      · obtain ⟨rfl, hi⟩ := hx
        have hnone : ¬ Has (s.phys p (vpn % nptentries)) pteP := by
          rw [hz]
          exact not_has_zero _
        simp [entryOf, hlt, hd', userPte, setWord, hi, hf, hdp, habs, hnone]
      · by_cases hp' : Has (s.phys d' (vpn / nptentries)) pteP
        · have htab := h.table hd' (index_lt hlt) hp'
          have htd : frame (s.phys d' (vpn / nptentries)) ≠ d :=
            ne_of_role ρ (by rw [htab, h.dir.mp hd]; simp)
          simp [entryOf, hlt, hd', userPte, setWord, hx, htd]
        · simp [entryOf, hlt, hd', userPte, setWord, hx, hp']
  · simp [entryOf, hlt]

/-- A table whose entries are all zero is given up, and its directory entry
cleared. -/
theorem Tree.leaveTable (h : Tree s.phys dirs ρ) (hd : dirs e = some d) (ht : ρ t = .table e i)
    (hz : ∀ j < nptentries, s.phys t j = 0#32) :
    Tree (s.setWord d i 0#32).phys dirs (Function.update ρ t .data) := by
  have hword : ∀ f k, ¬ (f = d ∧ k = i) → (s.setWord d i 0#32).phys f k = s.phys f k := by
    intro f k hfk
    simp [setWord, hfk]
  have hset : (s.setWord d i 0#32).phys d i = 0#32 := by simp [setWord]
  have hdirt : ∀ e' d', dirs e' = some d' → d' ≠ t :=
    fun e' d' hd' => ne_of_role ρ (by rw [h.dir.mp hd', ht]; simp)
  constructor
  · exact h.owner_lt
  · intro e' d'
    by_cases hdt : d' = t
    · subst hdt
      rw [Function.update_self]
      constructor
      · intro hd'
        exact absurd rfl (hdirt e' d' hd')
      · intro h0
        cases h0
    · rw [Function.update_of_ne hdt]
      exact h.dir
  · intro e' d' i' hd' hi' hp'
    by_cases hx : d' = d ∧ i' = i
    · obtain ⟨rfl, rfl⟩ := hx
      rw [hset] at hp'
      exact absurd hp' (not_has_zero _)
    · rw [hword d' i' hx] at hp' ⊢
      have htab := h.table hd' hi' hp'
      have hne : frame (s.phys d' i') ≠ t := by
        intro hft
        rw [hft, ht] at htab
        obtain ⟨rfl, rfl⟩ := Role.table.inj htab
        rw [hd] at hd'
        exact hx ⟨(Option.some.inj hd').symm, rfl⟩
      rw [Function.update_of_ne hne]
      exact htab
  · intro e' i' t' ht'
    have htt : t' ≠ t := by
      rintro rfl
      rw [Function.update_self] at ht'
      cases ht'
    rw [Function.update_of_ne htt] at ht'
    obtain ⟨d', hd', hi', hp', hf'⟩ := h.table_back ht'
    have hx : ¬ (d' = d ∧ i' = i) := by
      rintro ⟨rfl, rfl⟩
      have he : e' = e := Role.dir.inj ((h.dir.mp hd').symm.trans (h.dir.mp hd))
      obtain ⟨d'', hd'', -, -, hf''⟩ := h.table_back ht
      rw [hd] at hd''
      obtain rfl := Option.some.inj hd''
      exact htt (hf'.symm.trans hf'')
    refine ⟨d', hd', hi', ?_⟩
    rw [hword d' i' hx]
    exact ⟨hp', hf'⟩
  · intro e' i' t' j' ht' hj'
    have htt : t' ≠ t := by
      rintro rfl
      rw [Function.update_self] at ht'
      cases ht'
    rw [Function.update_of_ne htt] at ht'
    have htd : t' ≠ d := ne_of_role ρ (by rw [ht', h.dir.mp hd]; simp)
    rw [hword t' j' (fun hx => htd hx.1)]
    rcases h.entry ht' hj' with h0 | ⟨hpr, hdata⟩
    · exact Or.inl h0
    · refine Or.inr ⟨hpr, ?_⟩
      have hft : frame (s.phys t' j') ≠ t := ne_of_role ρ (by rw [hdata, ht]; simp)
      rw [Function.update_of_ne hft]
      exact hdata

theorem Tree.entryOf_leaveTable (h : Tree s.phys dirs ρ) (hd : dirs e = some d)
    (ht : ρ t = .table e i) (hz : ∀ j < nptentries, s.phys t j = 0#32) :
    entryOf (s.setWord d i 0#32).phys dirs = entryOf s.phys dirs := by
  obtain ⟨d₁, hd₁, hi, hpde, hfr⟩ := h.table_back ht
  rw [hd] at hd₁
  obtain rfl := Option.some.inj hd₁
  funext x
  obtain ⟨e', vpn⟩ := x
  by_cases hlt : vpn < upn
  · cases hd' : dirs e' with
    | none => simp [entryOf, hd']
    | some d' =>
      by_cases hx : d' = d ∧ vpn / nptentries = i
      · obtain ⟨rfl, hvi⟩ := hx
        have h0 := hz _ (mod_lt_nptentries vpn)
        simp [entryOf, hlt, hd', userPte, setWord, hvi, hfr, h0]
      · by_cases hp' : Has (s.phys d' (vpn / nptentries)) pteP
        · have htab := h.table hd' (index_lt hlt) hp'
          have htd : frame (s.phys d' (vpn / nptentries)) ≠ d :=
            ne_of_role ρ (by rw [htab, h.dir.mp hd]; simp)
          simp [entryOf, hlt, hd', userPte, setWord, hx, htd]
        · simp [entryOf, hlt, hd', userPte, setWord, hx, hp']
  · simp [entryOf, hlt]

/-! ## Directories -/

/-- A data frame that nothing maps becomes the directory of a new owner, if it
has no table yet. -/
theorem Tree.enterDir (h : Tree m dirs ρ) (he : dirs e = none) (helt : e < nenv)
    (hp : ρ p = .data) (hc : refCount m dirs p = 0)
    (habs : ∀ i < pdx utop, ¬ Has (m p i) pteP) :
    Tree m (Function.update dirs e (some p)) (Function.update ρ p (.dir e)) := by
  have hnp : ∀ f, ρ f ≠ .data → f ≠ p := by
    rintro f hf rfl
    exact hf hp
  have hold : ∀ {e' d'}, e' ≠ e → Function.update dirs e (some p) e' = some d' →
      dirs e' = some d' := by
    intro e' d' hne hd'
    rwa [Function.update_of_ne hne] at hd'
  have hnew : ∀ {d'}, Function.update dirs e (some p) e = some d' → d' = p := by
    intro d' hd'
    rw [Function.update_self] at hd'
    exact (Option.some.inj hd').symm
  constructor
  · intro e' d' hd'
    by_cases hee : e' = e
    · subst hee
      exact helt
    · exact h.owner_lt (hold hee hd')
  · intro e' d'
    by_cases hee : e' = e
    · subst hee
      refine ⟨fun hd' => ?_, fun hd' => ?_⟩
      · rw [hnew hd', Function.update_self]
      · rw [Function.update_self]
        by_cases hdp : d' = p
        · rw [hdp]
        · rw [Function.update_of_ne hdp] at hd'
          rw [h.dir.mpr hd'] at he
          cases he
    · rw [Function.update_of_ne hee]
      by_cases hdp : d' = p
      · subst hdp
        rw [Function.update_self]
        refine ⟨fun hd' => absurd rfl (hnp d' (by rw [h.dir.mp hd']; simp)), fun h0 => ?_⟩
        exact absurd (Role.dir.inj h0).symm hee
      · rw [Function.update_of_ne hdp]
        exact h.dir
  · intro e' d' i' hd' hi' hp'
    by_cases hee : e' = e
    · subst hee
      rw [hnew hd'] at hp'
      exact absurd hp' (habs i' hi')
    · have htab := h.table (hold hee hd') hi' hp'
      rw [Function.update_of_ne (hnp _ (by rw [htab]; simp))]
      exact htab
  · intro e' i' t' ht'
    have htp : t' ≠ p := by
      rintro rfl
      rw [Function.update_self] at ht'
      cases ht'
    rw [Function.update_of_ne htp] at ht'
    obtain ⟨d', hd', hrest⟩ := h.table_back ht'
    refine ⟨d', ?_, hrest⟩
    rw [Function.update_of_ne ?_]
    · exact hd'
    · rintro rfl
      rw [he] at hd'
      cases hd'
  · intro e' i' t' j' ht' hj'
    have htp : t' ≠ p := by
      rintro rfl
      rw [Function.update_self] at ht'
      cases ht'
    rw [Function.update_of_ne htp] at ht'
    rcases h.entry ht' hj' with h0 | ⟨hpr, hdata⟩
    · exact Or.inl h0
    · refine Or.inr ⟨hpr, ?_⟩
      rw [Function.update_of_ne (h.frame_ne_of_refCount hc ht' hj' hpr)]
      exact hdata

/-- A directory without tables is given up with its owner. -/
theorem Tree.leaveDir (h : Tree m dirs ρ) (hd : dirs e = some d)
    (habs : ∀ i < pdx utop, ¬ Has (m d i) pteP) :
    Tree m (Function.update dirs e none) (Function.update ρ d .data) := by
  have hnd : ∀ f, ρ f ≠ .dir e → f ≠ d := by
    rintro f hf rfl
    exact hf (h.dir.mp hd)
  have hold : ∀ {e' d'}, Function.update dirs e none e' = some d' → e' ≠ e ∧ dirs e' = some d' := by
    intro e' d' hd'
    by_cases hee : e' = e
    · subst hee
      rw [Function.update_self] at hd'
      cases hd'
    · rw [Function.update_of_ne hee] at hd'
      exact ⟨hee, hd'⟩
  constructor
  · intro e' d' hd'
    exact h.owner_lt (hold hd').2
  · intro e' d'
    refine ⟨fun hd' => ?_, fun hd' => ?_⟩
    · have hr := h.dir.mp (hold hd').2
      rw [Function.update_of_ne (hnd d' ?_)]
      · exact hr
      · rw [hr]
        exact fun h0 => (hold hd').1 (Role.dir.inj h0)
    · have hdd : d' ≠ d := by
        rintro rfl
        rw [Function.update_self] at hd'
        cases hd'
      rw [Function.update_of_ne hdd] at hd'
      have hd₁ := h.dir.mpr hd'
      rw [Function.update_of_ne ?_]
      · exact hd₁
      · rintro rfl
        rw [hd] at hd₁
        exact hdd (Option.some.inj hd₁).symm
  · intro e' d' i' hd' hi' hp'
    have htab := h.table (hold hd').2 hi' hp'
    rw [Function.update_of_ne (hnd _ (by rw [htab]; simp))]
    exact htab
  · intro e' i' t' ht'
    have htd : t' ≠ d := by
      rintro rfl
      rw [Function.update_self] at ht'
      cases ht'
    rw [Function.update_of_ne htd] at ht'
    obtain ⟨d', hd', hi', hp', hf'⟩ := h.table_back ht'
    refine ⟨d', ?_, hi', hp', hf'⟩
    rw [Function.update_of_ne ?_]
    · exact hd'
    · rintro rfl
      rw [hd] at hd'
      obtain rfl := Option.some.inj hd'
      exact habs i' hi' hp'
  · intro e' i' t' j' ht' hj'
    have htd : t' ≠ d := by
      rintro rfl
      rw [Function.update_self] at ht'
      cases ht'
    rw [Function.update_of_ne htd] at ht'
    rcases h.entry ht' hj' with h0 | ⟨hpr, hdata⟩
    · exact Or.inl h0
    · refine Or.inr ⟨hpr, ?_⟩
      rw [Function.update_of_ne (hnd _ (by rw [hdata]; simp))]
      exact hdata

/-- An owner without tables contributes nothing to the map. -/
theorem entryOf_update_of_absent (he : ∀ d, dirs e = some d → ∀ i < pdx utop, ¬ Has (m d i) pteP)
    {o : Option ℕ} (ho : ∀ d, o = some d → ∀ i < pdx utop, ¬ Has (m d i) pteP) :
    entryOf m (Function.update dirs e o) = entryOf m dirs := by
  have hnone : ∀ o' : Option ℕ, (∀ d, o' = some d → ∀ i < pdx utop, ¬ Has (m d i) pteP) →
      ∀ vpn < upn, (o'.bind fun d => userPte m d vpn) = none := by
    intro o' ho' vpn hlt
    cases o' with
    | none => rfl
    | some d =>
      have h0 := ho' d rfl _ (index_lt hlt)
      simp [userPte, h0]
  funext x
  obtain ⟨e', vpn⟩ := x
  by_cases hlt : vpn < upn
  · by_cases hee : e' = e
    · subst hee
      simp only [entryOf, hlt, if_true, Function.update_self]
      rw [hnone o ho vpn hlt, hnone _ he vpn hlt]
    · simp [entryOf, hlt, Function.update_of_ne hee]
  · simp [entryOf, hlt]

end Kernel
end PmakeOs
