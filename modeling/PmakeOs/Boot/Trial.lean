import PmakeOs.Boot.Pool

/-!
# What a self test sees

`check_page_alloc`, `check_page` and `check_page_installed_pgdir` take the first three
pages of the free list, use the first of them as a page table of `kern_pgdir`, and put
everything back.  All they look at is a handful of values: the free list, the
reference counts, the words of `kern_pgdir`, the words of that first page, and the other
frames.  A `View` is such a handful, and `Sees` says that a state has it while everything
else is as it was when the test began.

One lemma for each operation says how the view changes.  A test is then run by
following the view.
-/

namespace PmakeOs

open Lib

namespace Kernel

structure View where
  list : List ℕ
  ref : ℕ → BitVec 16
  pde : ℕ → Word
  pte : ℕ → Word
  mem : Phys

/-- Where a test starts: pages `a`, `b` and `c` are the first of the free list, and
`kern_pgdir` is none of its pages. -/
structure Bench (s₀ : Kernel) (a b c : ℕ) (rest : List ℕ) : Prop where
  pool : Pool s₀ (a :: b :: c :: rest)
  window : s₀.npages ≤ kernWindow
  kern : s₀.kernPgdir ∉ a :: b :: c :: rest

structure Sees (s₀ : Kernel) (a b c : ℕ) (s : Kernel) (v : View) : Prop where
  list : Threads s.links s.pageFreeList v.list
  held : ∀ p, p = a ∨ p = b ∨ p = c → p ∉ v.list → s.links p = none
  rest : ∀ p, ¬ (p = a ∨ p = b ∨ p = c) → s.links p = s₀.links p
  ref : ∀ p, (s.pages p).ppRef = v.ref p
  pde : ∀ i, s.phys s₀.kernPgdir i = v.pde i
  pte : ∀ j, s.phys a j = v.pte j
  phys : ∀ f, f ≠ a → f ≠ s₀.kernPgdir → s.phys f = v.mem f
  still : Still s₀ s

variable {s₀ s s' : Kernel} {a b c p q i j : ℕ} {rest l : List ℕ} {v : View} {w va perm : Word}

namespace Bench

variable (h : Bench s₀ a b c rest)

include h

theorem ne_ab : a ≠ b := by
  have hnd := h.pool.nodup
  rintro rfl
  simp at hnd

theorem ne_ac : a ≠ c := by
  have hnd := h.pool.nodup
  rintro rfl
  simp at hnd

theorem ne_bc : b ≠ c := by
  have hnd := h.pool.nodup
  rintro rfl
  simp at hnd

theorem kern_ne (hp : p = a ∨ p = b ∨ p = c) : p ≠ s₀.kernPgdir := by
  rintro rfl
  refine h.kern ?_
  simp only [List.mem_cons]
  tauto

theorem lt (hp : p = a ∨ p = b ∨ p = c) : p < s₀.npages := by
  refine h.pool.lt p ?_
  simp only [List.mem_cons]
  tauto

/-- The view at the start. -/
theorem sees : Sees s₀ a b c s₀
    ⟨a :: b :: c :: rest, fun p => (s₀.pages p).ppRef, s₀.phys s₀.kernPgdir, s₀.phys a,
      s₀.phys⟩ := by
  refine ⟨h.pool.list, fun p hp hl => ?_, fun _ _ => rfl, fun _ => rfl, fun _ => rfl, fun _ => rfl,
    fun _ _ _ => rfl, .refl s₀⟩
  refine absurd ?_ hl
  simp only [List.mem_cons]
  tauto

end Bench

namespace Sees

/-! ## Stores -/

theorem congr (h : Sees s₀ a b c s v) (hp : s'.pages = s.pages)
    (hl : s'.pageFreeList = s.pageFreeList) (hm : s'.phys = s.phys) (hs : Still s s') :
    Sees s₀ a b c s' v := by
  have hlinks : s'.links = s.links := by
    funext x
    simp only [links, hp]
  constructor
  · rw [hlinks, hl]; exact h.list
  · rw [hlinks]; exact h.held
  · rw [hlinks]; exact h.rest
  · rw [hp]; exact h.ref
  · rw [hm]; exact h.pde
  · rw [hm]; exact h.pte
  · rw [hm]; exact h.phys
  · exact h.still.trans hs

theorem note (h : Sees s₀ a b c s v) (ev : Event) : Sees s₀ a b c (s.note ev) v :=
  h.congr rfl rfl rfl ⟨rfl, rfl, rfl, rfl, rfl, fun _ => rfl⟩

theorem tlbInvalidate (h : Sees s₀ a b c s v) (d : ℕ) (va : Word) :
    Sees s₀ a b c (s.tlbInvalidate d va) v := by
  have hinv : Sees s₀ a b c (s.invlpg va) v := by
    refine h.congr rfl rfl rfl ⟨rfl, rfl, rfl, rfl, rfl, fun k => ?_⟩
    show (Function.update s.cpus s.cpunum _ k).cr3 = _
    rcases eq_or_ne k s.cpunum with rfl | hk
    · rw [Function.update_self]
      rfl
    · rw [Function.update_of_ne hk]
  unfold Kernel.tlbInvalidate
  split
  · exact hinv
  · split
    · exact hinv
    · exact h

/-- A store into `kern_pgdir`. -/
theorem setPde (h : Sees s₀ a b c s v) (hb : Bench s₀ a b c rest) (i : ℕ) (w : Word) :
    Sees s₀ a b c (s.setWord s₀.kernPgdir i w) { v with pde := Function.update v.pde i w } := by
  refine ⟨h.list, h.held, h.rest, h.ref, fun k => ?_, fun k => ?_, fun f hf hk => ?_, ?_⟩
  · rcases eq_or_ne k i with rfl | hki
    · simp [setWord]
    · simp [setWord, hki, h.pde k]
  · have hne : a ≠ s₀.kernPgdir := hb.kern_ne (Or.inl rfl)
    simp [setWord, hne, h.pte k]
  · rw [← h.phys f hf hk]
    funext k
    simp [setWord, hk]
  · exact h.still.trans ⟨rfl, rfl, rfl, rfl, rfl, fun _ => rfl⟩

/-- A store into the table. -/
theorem setPte (h : Sees s₀ a b c s v) (hb : Bench s₀ a b c rest) (j : ℕ) (w : Word) :
    Sees s₀ a b c (s.setWord a j w) { v with pte := Function.update v.pte j w } := by
  refine ⟨h.list, h.held, h.rest, h.ref, fun k => ?_, fun k => ?_, fun f hf hk => ?_, ?_⟩
  · have hne : s₀.kernPgdir ≠ a := (hb.kern_ne (Or.inl rfl)).symm
    simp [setWord, hne, h.pde k]
  · rcases eq_or_ne k j with rfl | hkj
    · simp [setWord]
    · simp [setWord, hkj, h.pte k]
  · rw [← h.phys f hf hk]
    funext k
    simp [setWord, hf]
  · exact h.still.trans ⟨rfl, rfl, rfl, rfl, rfl, fun _ => rfl⟩

/-- A write of other frames of the test. -/
theorem setOther (h : Sees s₀ a b c s v) (hb : Bench s₀ a b c rest) {f₀ : ℕ}
    (hf₀ : f₀ = b ∨ f₀ = c) {m : Phys} (hm : ∀ f, f ≠ f₀ → m f = s.phys f) :
    Sees s₀ a b c { s with phys := m } { v with mem := m } := by
  have hfa : a ≠ f₀ := by
    rcases hf₀ with rfl | rfl
    · exact hb.ne_ab
    · exact hb.ne_ac
  have hfk : s₀.kernPgdir ≠ f₀ := (hb.kern_ne (Or.inr hf₀)).symm
  refine ⟨h.list, h.held, h.rest, h.ref, fun k => ?_, fun k => ?_, fun f hf hk => rfl, ?_⟩
  · show m _ _ = _
    rw [hm _ hfk, h.pde]
  · show m _ _ = _
    rw [hm _ hfa, h.pte]
  · exact h.still.trans ⟨rfl, rfl, rfl, rfl, rfl, fun _ => rfl⟩

/-- The whole table, filled with one word. -/
theorem fillTable (h : Sees s₀ a b c s v) (hb : Bench s₀ a b c rest) {m : Phys}
    (hm : ∀ f, f ≠ a → m f = s.phys f) :
    Sees s₀ a b c { s with phys := m } { v with pte := m a } := by
  have hka : s₀.kernPgdir ≠ a := (hb.kern_ne (Or.inl rfl)).symm
  refine ⟨h.list, h.held, h.rest, h.ref, fun k => ?_, fun k => rfl, fun f hf hk => ?_, ?_⟩
  · show m _ _ = _
    rw [hm _ hka, h.pde]
  · show m _ = _
    rw [hm f hf, h.phys f hf hk]
  · exact h.still.trans ⟨rfl, rfl, rfl, rfl, rfl, fun _ => rfl⟩

/-- A change of a reference count. -/
theorem setRef (h : Sees s₀ a b c s v) (p : ℕ) (r : BitVec 16) :
    Sees s₀ a b c (s.setPage p { s.pages p with ppRef := r })
      { v with ref := Function.update v.ref p r } := by
  have hlinks : (s.setPage p { s.pages p with ppRef := r }).links = s.links :=
    links_setPage_of_eq _ _ _ rfl
  refine ⟨?_, ?_, ?_, fun q => ?_, h.pde, h.pte, h.phys,
    h.still.trans ⟨rfl, rfl, rfl, rfl, rfl, fun _ => rfl⟩⟩
  · rw [hlinks]; exact h.list
  · rw [hlinks]; exact h.held
  · rw [hlinks]; exact h.rest
  · rcases eq_or_ne q p with rfl | hqp
    · simp [setPage]
    · simp [setPage, hqp, h.ref q]

theorem incRef (h : Sees s₀ a b c s v) (p : ℕ) :
    Sees s₀ a b c (s.incRef p) { v with ref := Function.update v.ref p (v.ref p + 1#16) } := by
  have h' := h.setRef p ((s.pages p).ppRef + 1#16)
  rw [h.ref p] at h'
  rw [Kernel.incRef, h.ref p]
  exact h'

/-! ## The free list -/

/-- The list is hidden from the allocator. -/
theorem steal (h : Sees s₀ a b c s v) (hl : a ∉ v.list ∧ b ∉ v.list ∧ c ∉ v.list) :
    Sees s₀ a b c { s with pageFreeList := none } { v with list := [] } := by
  refine ⟨.nil, fun p hp _ => h.held p hp ?_, h.rest, h.ref, h.pde, h.pte, h.phys,
    h.still.trans ⟨rfl, rfl, rfl, rfl, rfl, fun _ => rfl⟩⟩
  rcases hp with rfl | rfl | rfl
  · exact hl.1
  · exact hl.2.1
  · exact hl.2.2

/-- The list is given back. -/
theorem giveBack (h : Sees s₀ a b c s v) (hb : Bench s₀ a b c rest) (hl : v.list = []) {v' : View}
    (h' : Sees s₀ a b c s' v') (hl' : v'.list = rest) :
    Sees s₀ a b c { s with pageFreeList := s'.pageFreeList } { v with list := rest } := by
  have hnd := hb.pool.nodup
  have hoff : ∀ p ∈ rest, ¬ (p = a ∨ p = b ∨ p = c) := by
    simp only [List.nodup_cons, List.mem_cons] at hnd
    rintro p hp (rfl | rfl | rfl)
    · tauto
    · tauto
    · tauto
  refine ⟨?_, fun p hp _ => h.held p hp (by rw [hl]; simp), h.rest, h.ref, h.pde, h.pte, h.phys,
    h.still.trans ⟨rfl, rfl, rfl, rfl, rfl, fun _ => rfl⟩⟩
  have hlist := h'.list
  rw [hl'] at hlist
  exact hlist.frame fun p hp => (h.rest p (hoff p hp)).trans (h'.rest p (hoff p hp)).symm

/-- The head of the list, without clearing it. -/
theorem popPage (h : Sees s₀ a b c s v) (hp : p = a ∨ p = b ∨ p = c) (hl : v.list = p :: l) :
    s.pageFreeList = some p ∧
      Sees s₀ a b c { s.setPage p { s.pages p with ppLink := none } with
        pageFreeList := (s.pages p).ppLink } { v with list := l } := by
  have hlist := h.list
  rw [hl] at hlist
  have hhead : s.pageFreeList = some p := hlist.head_eq
  rw [hhead] at hlist
  obtain ⟨l', hl', hpop⟩ := hlist.pop
  obtain ⟨-, rfl⟩ := List.cons.inj hl'
  have hlinks : ({ s.setPage p { s.pages p with ppLink := none } with
      pageFreeList := (s.pages p).ppLink } : Kernel).links = Function.update s.links p none :=
    links_setPage s p _
  refine ⟨hhead, ?_, fun q hq hql => ?_, fun q hq => ?_, fun q => ?_, h.pde, h.pte, h.phys,
    h.still.trans ⟨rfl, rfl, rfl, rfl, rfl, fun _ => rfl⟩⟩
  · rw [hlinks]
    exact hpop
  · rw [hlinks]
    rcases eq_or_ne q p with rfl | hqp
    · rw [Function.update_self]
    · rw [Function.update_of_ne hqp]
      refine h.held q hq ?_
      rw [hl, List.mem_cons, not_or]
      exact ⟨hqp, hql⟩
  · have hqp : q ≠ p := by
      rintro rfl
      exact hq hp
    rw [hlinks, Function.update_of_ne hqp]
    exact h.rest q hq
  · rw [← h.ref q]
    exact ppRef_setLink s p none q

/-- `page_alloc(0)` -/
theorem mustAlloc (h : Sees s₀ a b c s v) (hp : p = a ∨ p = b ∨ p = c) (hl : v.list = p :: l) :
    ∃ s', s.mustAlloc 0#32 = .ok (p, s') ∧ Sees s₀ a b c s' { v with list := l } := by
  obtain ⟨hhead, h'⟩ := h.popPage hp hl
  refine ⟨_, ?_, h'⟩
  have hno : ¬ Has 0#32 allocZero := not_has_zero _
  rw [Kernel.mustAlloc, pageAlloc, hhead]
  simp only [if_neg hno]
  rfl

theorem mustNotAlloc (h : Sees s₀ a b c s v) (hl : v.list = []) : s.mustNotAlloc = .ok s := by
  have hhead : s.pageFreeList = none := by
    rw [h.list.head_eq, hl]
    rfl
  rw [Kernel.mustNotAlloc, pageAlloc_of_nil hhead]
  rfl

theorem pushFree (h : Sees s₀ a b c s v) (hp : p = a ∨ p = b ∨ p = c) (hl : p ∉ v.list) :
    Sees s₀ a b c (s.pushFree p) { v with list := p :: v.list } := by
  refine ⟨?_, fun q hq hql => ?_, fun q hq => ?_, fun q => ?_, h.pde, h.pte, h.phys,
    h.still.trans ⟨rfl, rfl, rfl, rfl, rfl, fun _ => rfl⟩⟩
  · rw [links_pushFree]
    exact h.list.push hl
  · rw [List.mem_cons, not_or] at hql
    rw [links_pushFree, Function.update_of_ne hql.1]
    exact h.held q hq hql.2
  · have hqp : q ≠ p := by
      rintro rfl
      exact hq hp
    rw [links_pushFree, Function.update_of_ne hqp]
    exact h.rest q hq
  · rw [← h.ref q]
    exact ppRef_setLink s p _ q

/-- `page_free` -/
theorem pageFree (h : Sees s₀ a b c s v) (hp : p = a ∨ p = b ∨ p = c) (hl : p ∉ v.list)
    (hr : v.ref p = 0#16) :
    ∃ s', s.pageFree p = .ok s' ∧ Sees s₀ a b c s' { v with list := p :: v.list } :=
  ⟨_, pageFree_of_ok ((h.ref p).trans hr) (h.held p hp hl), h.pushFree hp hl⟩

end Sees

/-! ## Tables -/

namespace View

/-- One reference more. -/
def inc (v : View) (p : ℕ) : View := { v with ref := Function.update v.ref p (v.ref p + 1#16) }

/-- One reference less, and the page is free if it was the last. -/
def drop (v : View) (q : ℕ) : View :=
  { v with
    ref := Function.update v.ref q (v.ref q - 1#16)
    list := if v.ref q = 1#16 then q :: v.list else v.list }

/-- The first page becomes table `i`. -/
def table (v : View) (a i : ℕ) (l : List ℕ) : View :=
  { v with
    list := l
    ref := Function.update v.ref a (v.ref a + 1#16)
    pde := Function.update v.pde i (page2pa a ||| pteP ||| pteU ||| pteW)
    pte := fun _ => 0#32 }

/-- Entry `j` is cleared. -/
def clear (v : View) (j : ℕ) : View := { v with pte := Function.update v.pte j 0#32 }

/-- Page `pp` is entered. -/
def enter (v : View) (i j pp : ℕ) (perm : Word) : View :=
  { v with
    pte := Function.update v.pte j (page2pa pp ||| perm ||| pteP)
    pde := Function.update v.pde i (v.pde i ||| perm) }

end View

namespace Sees

theorem dropRef (h : Sees s₀ a b c s v) (hq : q = a ∨ q = b ∨ q = c) (hl : q ∉ v.list) :
    Sees s₀ a b c (s.dropRef q) (v.drop q) := by
  have hdec := h.setRef q (v.ref q - 1#16)
  have hstate : s.decRef q = s.setPage q { s.pages q with ppRef := v.ref q - 1#16 } := by
    rw [decRef, h.ref q]
  unfold Kernel.dropRef View.drop
  rw [h.ref q, hstate]
  by_cases hone : v.ref q = 1#16
  · rw [if_pos hone, if_pos hone]
    exact hdec.pushFree hq hl
  · rw [if_neg hone, if_neg hone]
    exact hdec

theorem window (h : Sees s₀ a b c s v) (hb : Bench s₀ a b c rest) : s.npages ≤ kernWindow := by
  rw [h.still.npages]
  exact hb.window

theorem lt (h : Sees s₀ a b c s v) (hb : Bench s₀ a b c rest) (hp : p = a ∨ p = b ∨ p = c) :
    p < s.npages := by
  rw [h.still.npages]
  exact hb.lt hp

theorem lt_kernWindow (h : Sees s₀ a b c s v) (hb : Bench s₀ a b c rest)
    (hp : p = a ∨ p = b ∨ p = c) : p < kernWindow :=
  lt_of_lt_of_le (h.lt hb hp) (h.window hb)

theorem page2kva (h : Sees s₀ a b c s v) (hb : Bench s₀ a b c rest)
    (hp : p = a ∨ p = b ∨ p = c) : s.page2kva p = .ok p :=
  page2kva_of_lt (h.lt hb hp) (h.lt_kernWindow hb hp)

/-- The head of the list, cleared. -/
theorem takePage (h : Sees s₀ a b c s v) (hb : Bench s₀ a b c rest) (hl : v.list = a :: l) :
    s.pageFreeList = some a ∧
      Sees s₀ a b c (s.takePage a) { v with list := l, pte := fun _ => 0#32 } := by
  obtain ⟨hhead, h'⟩ := h.popPage (Or.inl rfl) hl
  have h'' := h'.fillTable hb (m := fun f i => if f = a then 0#32 else s.phys f i) (by
    intro f hf
    funext i
    show (if f = a then _ else _) = s.phys f i
    rw [if_neg hf])
  simp only [if_true] at h''
  exact ⟨hhead, h''⟩

/-- The walk makes the first page a table. -/
theorem walkNew (h : Sees s₀ a b c s v) (hb : Bench s₀ a b c rest) (va : Word)
    (hl : v.list = a :: l) (hno : ¬ Has (v.pde (pdx va)) pteP) :
    ∃ s', s.pgdirWalk s₀.kernPgdir va true = .ok (some (a, ptx va), s') ∧
      Sees s₀ a b c s' (v.table a (pdx va) l) := by
  obtain ⟨hhead, h'⟩ := h.takePage hb hl
  have hno' : ¬ Has (s.phys s₀.kernPgdir (pdx va)) pteP := by rwa [h.pde]
  refine ⟨_, pgdirWalk_of_alloc hno' hhead (h.lt hb (Or.inl rfl)) (h.window hb), ?_⟩
  exact ((h'.incRef a).setPde hb (pdx va) _).note _

theorem walk (h : Sees s₀ a b c s v) (hb : Bench s₀ a b c rest) (va : Word)
    (hp : Has (v.pde (pdx va)) pteP) (hf : frame (v.pde (pdx va)) = a) (create : Bool) :
    s.pgdirWalk s₀.kernPgdir va create = .ok (some (a, ptx va), s) := by
  have hpde := h.pde (pdx va)
  have hp' : Has (s.phys s₀.kernPgdir (pdx va)) pteP := by rwa [hpde]
  have hrun := pgdirWalk_of_present hp' (by rw [hpde, hf]; exact h.lt hb (Or.inl rfl))
    (h.window hb) create
  rw [hpde, hf] at hrun
  exact hrun

theorem storeEntry (h : Sees s₀ a b c s v) (hb : Bench s₀ a b c rest) (pp : ℕ) :
    Sees s₀ a b c (s.storeEntry s₀.kernPgdir va a j pp perm) (v.enter (pdx va) j pp perm) := by
  have h₁ := h.setPte hb j (page2pa pp ||| perm ||| pteP)
  have h₂ := h₁.setPde hb (pdx va) (v.pde (pdx va) ||| perm)
  have hw : (s.setWord a j (page2pa pp ||| perm ||| pteP)).phys s₀.kernPgdir (pdx va) =
      v.pde (pdx va) := h₁.pde (pdx va)
  unfold Kernel.storeEntry
  simp only [hw]
  exact h₂.note _

/-- `page_remove` -/
theorem pageRemove (h : Sees s₀ a b c s v) (hb : Bench s₀ a b c rest) (va : Word)
    (hp : Has (v.pde (pdx va)) pteP) (hf : frame (v.pde (pdx va)) = a)
    (hne : v.pte (ptx va) ≠ 0#32) (hq : frame (v.pte (ptx va)) = q)
    (hT : q = a ∨ q = b ∨ q = c) (hl : q ∉ v.list) :
    ∃ s', s.pageRemove s₀.kernPgdir va = .ok s' ∧
      Sees s₀ a b c s' ((v.drop q).clear (ptx va)) := by
  have hpde := h.pde (pdx va)
  have hpte := h.pte (ptx va)
  have hlook : s.pageLookup s₀.kernPgdir va = .ok (some (q, (a, ptx va))) :=
    pageLookup_of_mapped (by rw [hpde]; exact hp) (by rw [hpde, hf]) (h.lt hb (Or.inl rfl))
      (h.window hb) (by rw [hpte]; exact hne) (by rw [hpte, hq]) (h.lt hb hT)
  refine ⟨_, pageRemove_of_lookup_some hlook (h.held q hT hl), ?_⟩
  exact ((h.dropRef hT hl).setPte hb (ptx va) 0#32).tlbInvalidate _ va

/-- `page_insert` where nothing is mapped. -/
theorem insertUnused (h : Sees s₀ a b c s v) (hb : Bench s₀ a b c rest) (va perm : Word)
    (hp : Has (v.pde (pdx va)) pteP) (hf : frame (v.pde (pdx va)) = a)
    (hno : ¬ Has (v.pte (ptx va)) pteP) (pp : ℕ) :
    ∃ s', s.pageInsert s₀.kernPgdir pp va perm = .ok (0, s') ∧
      Sees s₀ a b c s' ((v.inc pp).enter (pdx va) (ptx va) pp perm) :=
  ⟨_, pageInsert_of_unused (h.walk hb va hp hf true) (by rw [h.pte]; exact hno),
    (h.incRef pp).storeEntry hb pp⟩

/-- `page_insert` of the first page under a directory entry. -/
theorem insertNew (h : Sees s₀ a b c s v) (hb : Bench s₀ a b c rest) (va perm : Word)
    (hl : v.list = a :: l) (hno : ¬ Has (v.pde (pdx va)) pteP) (pp : ℕ) :
    ∃ s', s.pageInsert s₀.kernPgdir pp va perm = .ok (0, s') ∧ Sees s₀ a b c s'
      (((v.table a (pdx va) l).inc pp).enter (pdx va) (ptx va) pp perm) := by
  obtain ⟨s', hwalk, h'⟩ := h.walkNew hb va hl hno
  exact ⟨_, pageInsert_of_unused hwalk (by rw [h'.pte]; exact not_has_zero _),
    (h'.incRef pp).storeEntry hb pp⟩

/-- `page_insert` where page `q` is mapped. -/
theorem insertUsed (h : Sees s₀ a b c s v) (hb : Bench s₀ a b c rest) (va perm : Word)
    (hp : Has (v.pde (pdx va)) pteP) (hf : frame (v.pde (pdx va)) = a)
    (hin : Has (v.pte (ptx va)) pteP) (hq : frame (v.pte (ptx va)) = q)
    (hT : q = a ∨ q = b ∨ q = c) (hl : q ∉ v.list) (pp : ℕ) :
    ∃ s', s.pageInsert s₀.kernPgdir pp va perm = .ok (0, s') ∧ Sees s₀ a b c s'
      ((((v.inc pp).drop q).clear (ptx va)).enter (pdx va) (ptx va) pp perm) := by
  have hne : v.pte (ptx va) ≠ 0#32 := by
    intro h0
    rw [h0] at hin
    exact not_has_zero _ hin
  obtain ⟨s', hrem, h'⟩ := (h.incRef pp).pageRemove hb va hp hf hne hq hT hl
  exact ⟨_, pageInsert_of_used (h.walk hb va hp hf true) (by rw [h.pte]; exact hin) hrem,
    h'.storeEntry hb pp⟩

theorem insertNoMem (h : Sees s₀ a b c s v) (va perm : Word) (hl : v.list = [])
    (hno : ¬ Has (v.pde (pdx va)) pteP) (pp : ℕ) :
    s.pageInsert s₀.kernPgdir pp va perm = .ok (-eNoMem, s) := by
  refine pageInsert_of_noMem (by rw [h.pde]; exact hno) ?_ pp
  rw [h.list.head_eq, hl]
  rfl

theorem checkVa2pa (h : Sees s₀ a b c s v) (hb : Bench s₀ a b c rest)
    (hp : Has (v.pde (pdx va)) pteP) (hf : frame (v.pde (pdx va)) = a) :
    s.checkVa2pa s₀.kernPgdir va = .ok (if Has (v.pte (ptx va)) pteP then pteAddr (v.pte (ptx va))
      else BitVec.allOnes 32) := by
  have hpg : pgnum (pteAddr (v.pde (pdx va))) = a := hf
  have hk : s.kaddr (pteAddr (v.pde (pdx va))) = .ok a := by
    rw [kaddr_of_lt (by rw [hpg]; exact h.lt hb (Or.inl rfl))
      (by rw [hpg]; exact h.lt_kernWindow hb (Or.inl rfl)), hpg]
  rw [Kernel.checkVa2pa, h.pde, if_neg (not_not_intro hp), hk, ok_bind, h.pte]
  by_cases hin : Has (v.pte (ptx va)) pteP
  · rw [if_neg (not_not_intro hin), if_pos hin]
    rfl
  · rw [if_pos hin, if_neg hin]
    rfl

/-- A test that ends with all of its pages free and the directory as it was. -/
theorem tested (h : Sees s₀ a b c s v) (hb : Bench s₀ a b c rest)
    (hl : v.list.Perm (a :: b :: c :: rest)) (hr : ∀ p, v.ref p = (s₀.pages p).ppRef)
    (hd : v.pde = s₀.phys s₀.kernPgdir)
    (hm : ∀ f, ¬ (f = a ∨ f = b ∨ f = c) → f ≠ s₀.kernPgdir → v.mem f = s₀.phys f) :
    Tested s₀ s (a :: b :: c :: rest) v.list := by
  have hmem : ∀ p, (p = a ∨ p = b ∨ p = c) → p ∈ a :: b :: c :: rest := by
    intro p hp
    simp only [List.mem_cons]
    tauto
  refine ⟨⟨h.list, fun p hp => ?_, fun p hp => ?_, fun p hp => ?_⟩, hl, fun p _ => ?_,
    fun f hf => ?_, h.still⟩
  · by_cases hT : p = a ∨ p = b ∨ p = c
    · exact h.held p hT hp
    · rw [h.rest p hT]
      exact hb.pool.link p fun h0 => hp (hl.mem_iff.mpr h0)
  · rw [h.ref, hr]
    exact hb.pool.ref p (hl.mem_iff.mp hp)
  · rw [h.still.npages]
    exact hb.pool.lt p (hl.mem_iff.mp hp)
  · rw [h.ref, hr]
  · have hT : ¬ (f = a ∨ f = b ∨ f = c) := fun h0 => hf (hmem f h0)
    rcases eq_or_ne f s₀.kernPgdir with rfl | hk
    · funext i
      rw [h.pde, hd]
    · rw [h.phys f (fun h0 => hT (Or.inl h0)) hk, hm f hT hk]

end Sees

/-- The three pages are taken, and the rest of the list is hidden. -/
theorem Bench.take (hb : Bench s₀ a b c rest) : ∃ s₁ s₂ s₃,
    s₀.mustAlloc 0#32 = .ok (a, s₁) ∧ s₁.mustAlloc 0#32 = .ok (b, s₂) ∧
      s₂.mustAlloc 0#32 = .ok (c, s₃) ∧ Sees s₀ a b c s₃
        ⟨rest, fun p => (s₀.pages p).ppRef, s₀.phys s₀.kernPgdir, s₀.phys a, s₀.phys⟩ := by
  obtain ⟨s₁, hrun₁, h₁⟩ := hb.sees.mustAlloc (Or.inl rfl) rfl
  obtain ⟨s₂, hrun₂, h₂⟩ := h₁.mustAlloc (Or.inr (Or.inl rfl)) rfl
  obtain ⟨s₃, hrun₃, h₃⟩ := h₂.mustAlloc (Or.inr (Or.inr rfl)) rfl
  exact ⟨s₁, s₂, s₃, hrun₁, hrun₂, hrun₃, h₃⟩

theorem Bench.not_mem_rest (hb : Bench s₀ a b c rest) : a ∉ rest ∧ b ∉ rest ∧ c ∉ rest := by
  have hnd := hb.pool.nodup
  simp only [List.nodup_cons, List.mem_cons] at hnd
  tauto

/-- The pages that a test took have no references at the start. -/
theorem Bench.ref (hb : Bench s₀ a b c rest) (hp : p = a ∨ p = b ∨ p = c) :
    (s₀.pages p).ppRef = 0#16 := by
  refine hb.pool.ref p ?_
  simp only [List.mem_cons]
  tauto

theorem page2pa_lt (hp : p < s.npages) (hw : s.npages ≤ kernWindow) :
    page2pa p < BitVec.ofNat 32 (s.npages * pgsize) := by
  rw [kernWindow] at hw
  rw [BitVec.lt_def, toNat_page2pa (by omega), BitVec.toNat_ofNat, pgsize]
  omega

/-- **`check_page_alloc` succeeds** if there are three pages. -/
theorem Bench.checkPageAlloc (hb : Bench s₀ a b c rest) :
    ∃ s, s₀.checkPageAlloc = .ok s ∧
      Tested s₀ s (a :: b :: c :: rest) (a :: b :: c :: rest) := by
  have hA : a = a ∨ a = b ∨ a = c := Or.inl rfl
  have hB : b = a ∨ b = b ∨ b = c := Or.inr (Or.inl rfl)
  have hC : c = a ∨ c = b ∨ c = c := Or.inr (Or.inr rfl)
  obtain ⟨ha, hbr, hc⟩ := hb.not_mem_rest
  obtain ⟨s₁, s₂, s₃, hrun₁, hrun₂, hrun₃, h₃⟩ := hb.take
  have h₄ := h₃.steal hb.not_mem_rest
  -- all three are freed, and come back in the opposite order
  obtain ⟨s₅, hrun₅, h₅⟩ := h₄.pageFree hA (by simp) (hb.ref hA)
  obtain ⟨s₆, hrun₆, h₆⟩ := h₅.pageFree hB (by simp [hb.ne_ab.symm]) (hb.ref hB)
  obtain ⟨s₇, hrun₇, h₇⟩ := h₆.pageFree hC (by simp [hb.ne_ac.symm, hb.ne_bc.symm]) (hb.ref hC)
  obtain ⟨s₈, hrun₈, h₈⟩ := h₇.mustAlloc hC rfl
  obtain ⟨s₉, hrun₉, h₉⟩ := h₈.mustAlloc hB rfl
  obtain ⟨s₁₀, hrun₁₀, h₁₀⟩ := h₉.mustAlloc hA rfl
  -- the flags are tested on the last one
  have hfill : ∀ {t : Kernel} {n : ℕ} {x : Word} (f : ℕ), f ≠ c →
      (t.fillFrame c n x).phys f = t.phys f := by
    intro t n x f hf
    funext i
    simp [fillFrame, hf]
  have h₁₁ : Sees s₀ a b c (s₁₀.fillFrame c 1024 0x01010101#32) _ :=
    h₁₀.setOther hb (Or.inr rfl) (fun f hf => hfill f hf)
  obtain ⟨s₁₂, hrun₁₂, h₁₂⟩ := h₁₁.pageFree hC (by simp) (hb.ref hC)
  obtain ⟨hhead, h₁₃⟩ := h₁₂.popPage hC rfl
  have h₁₄ : Sees s₀ a b c (s₁₂.takePage c) _ :=
    h₁₃.setOther hb (Or.inr rfl) (m := (s₁₂.takePage c).phys) (fun f hf => by
      funext i
      simp [takePage, zeroFrame, setPage, hf])
  have hrun₁₄ : s₁₂.mustAlloc allocZero = .ok (c, s₁₂.takePage c) := by
    rw [Kernel.mustAlloc, pageAlloc_of_cons hhead (h₁₂.lt hb hC) (h₁₂.lt_kernWindow hb hC)]
    rfl
  have h₁₅ := h₁₄.giveBack hb rfl h₃ rfl
  obtain ⟨s₁₆, hrun₁₆, h₁₆⟩ := h₁₅.pageFree hC hc (hb.ref hC)
  obtain ⟨s₁₇, hrun₁₇, h₁₇⟩ := h₁₆.pageFree hB (by simp [hb.ne_bc, hbr]) (hb.ref hB)
  obtain ⟨s₁₈, hrun₁₈, h₁₈⟩ := h₁₇.pageFree hA (by simp [hb.ne_ab, hb.ne_ac, ha]) (hb.ref hA)
  have hmem : ∀ f, ¬ (f = a ∨ f = b ∨ f = c) → f ≠ s₀.kernPgdir →
      (s₁₂.takePage c).phys f = s₀.phys f := by
    intro f hf hk
    have hfa : f ≠ a := fun h0 => hf (Or.inl h0)
    have hfc : f ≠ c := fun h0 => hf (Or.inr (Or.inr h0))
    have htake : (s₁₂.takePage c).phys f = s₁₂.phys f := by
      funext i
      simp [takePage, zeroFrame, setPage, hfc]
    rw [htake, h₁₂.phys f hfa hk]
    exact (hfill f hfc).trans (h₁₀.phys f hfa hk)
  have htested : Tested s₀ s₁₈ (a :: b :: c :: rest) (a :: b :: c :: rest) :=
    h₁₈.tested hb (.refl _) (fun _ => rfl) rfl hmem
  refine ⟨s₁₈, ?_, htested⟩
  have hzero : ∀ i ∈ List.range 1024, assert ((s₁₂.takePage c).phys c i = 0#32) = .ok () := by
    intro i _
    exact assert_of (by simp [takePage, zeroFrame])
  rw [Kernel.checkPageAlloc, hrun₁]
  simp only [ok_bind, hrun₂, hrun₃]
  rw [assert_of hb.ne_ab.symm, ok_bind, assert_of ⟨hb.ne_bc.symm, hb.ne_ac.symm⟩, ok_bind,
    assert_of (page2pa_lt (h₃.lt hb hA) (h₃.window hb)), ok_bind,
    assert_of (page2pa_lt (h₃.lt hb hB) (h₃.window hb)), ok_bind,
    assert_of (page2pa_lt (h₃.lt hb hC) (h₃.window hb)), ok_bind, h₄.mustNotAlloc rfl, ok_bind,
    hrun₅, ok_bind, hrun₆, ok_bind, hrun₇, ok_bind, hrun₈]
  simp only [ok_bind, hrun₉, hrun₁₀]
  rw [assert_of hb.ne_bc, ok_bind, assert_of ⟨hb.ne_ab, hb.ne_ac⟩, ok_bind,
    h₁₀.mustNotAlloc rfl, ok_bind, h₁₀.page2kva hb hC, ok_bind, hrun₁₂, ok_bind, hrun₁₄]
  simp only [ok_bind]
  rw [assert_of trivial, ok_bind, h₁₄.page2kva hb hC, ok_bind, forM_eq_ok.mpr hzero, ok_bind, hrun₁₆,
    ok_bind, hrun₁₇, ok_bind, hrun₁₈, ok_bind, htested.pool.freePages_eq, hb.pool.freePages_eq,
    assert_of rfl]
  rfl

end Kernel
end PmakeOs
