import PmakeOs.Paging.Preserve

/-!
# The reference counts

`pp_ref` is meant to be the number of pointers to a page.  The pointers that the
tables hold are counted by `refCount`; a table, a directory or a table of the
kernel is pointed to once (`Role.own`); and in the middle of an operation a
page may be counted for a pointer that is about to be stored, or was just
cleared.  Those are in the map `due`, which an operation leaves as it found it.

`Ledger s dirs ρ due pend` puts it together with the typing.  The counter is
sixteen bits wide and the ledger says so: the two sides agree modulo `2 ^ 16`.
The clause `used` is the absence of leaks: a data frame is pointed to, unless it
is one of the frames of `pend` that were allocated and not yet entered anywhere.

The lemmas follow the stores.  Only `Ledger.dropRef` needs a bound: it decides
from the counter whether the last pointer is gone, so the pointers must not
number more than the counter can tell apart from one.
-/

namespace PmakeOs

open Lib

/-- The pointers to a frame that its role implies. -/
def Role.own : Role → ℕ
  | .kern | .dir _ | .table _ _ => 1
  | _ => 0

@[simp] theorem Role.own_free : Role.free.own = 0 := rfl

@[simp] theorem Role.own_kern : Role.kern.own = 1 := rfl

@[simp] theorem Role.own_dir (e : ℕ) : (Role.dir e).own = 1 := rfl

@[simp] theorem Role.own_table (e i : ℕ) : (Role.table e i).own = 1 := rfl

@[simp] theorem Role.own_data : Role.data.own = 0 := rfl

namespace Kernel

variable {s s' : Kernel} {dirs : ℕ → Option ℕ} {ρ : ℕ → Role} {due due' : ℕ → ℕ}
  {pend pend' : ℕ → Prop} {e d i j t p q : ℕ} {w perm : Word}

structure Ledger (s : Kernel) (dirs : ℕ → Option ℕ) (ρ : ℕ → Role) (due : ℕ → ℕ)
    (pend : ℕ → Prop) : Prop where
  typed : Typed s dirs ρ
  count : ∀ {q}, ρ q ≠ .reserved → (s.pages q).ppRef =
    BitVec.ofNat 16 (refCount s.phys dirs q + (ρ q).own + due q)
  used : ∀ {q}, ρ q = .data → 0 < refCount s.phys dirs q + due q ∨ pend q

theorem Ledger.congr (h : Ledger s dirs ρ due pend) (hn : s'.npages = s.npages)
    (hp : s'.pages = s.pages) (hf : s'.pageFreeList = s.pageFreeList)
    (hm : s'.phys = s.phys) : Ledger s' dirs ρ due pend := by
  have hl : s'.links = s.links := by
    funext x
    simp only [links, hp]
  refine ⟨⟨?_, ?_, h.typed.free.congr hl hf fun _ => Iff.rfl, ?_⟩, ?_, ?_⟩
  · rw [hn]; exact h.typed.window
  · rw [hn]; exact h.typed.lt
  · rw [hm]; exact h.typed.tree
  · rw [hp, hm]; exact h.count
  · rw [hm]; exact h.used

theorem Ledger.note (h : Ledger s dirs ρ due pend) (ev : Event) :
    Ledger (s.note ev) dirs ρ due pend :=
  h.congr rfl rfl rfl rfl

theorem Ledger.tlbInvalidate (h : Ledger s dirs ρ due pend) (d : ℕ) (va : Word) :
    Ledger (s.tlbInvalidate d va) dirs ρ due pend := by
  unfold Kernel.tlbInvalidate
  split
  · exact h.congr rfl rfl rfl rfl
  · split
    · exact h.congr rfl rfl rfl rfl
    · exact h

/-- More frames may be pending. -/
theorem Ledger.mono (h : Ledger s dirs ρ due pend) (hp : ∀ q, ρ q = .data → pend q → pend' q) :
    Ledger s dirs ρ due pend' :=
  ⟨h.typed, h.count, fun {q} hq => (h.used hq).imp id (hp q hq)⟩

/-! ## Counting up -/

theorem ofNat_add_one (n : ℕ) : BitVec.ofNat 16 n + 1#16 = BitVec.ofNat 16 (n + 1) := by
  rw [BitVec.ofNat_add]

theorem Ledger.incRef (h : Ledger s dirs ρ due pend) (p : ℕ) :
    Ledger (s.incRef p) dirs ρ (Function.update due p (due p + 1)) pend := by
  refine ⟨⟨h.typed.window, h.typed.lt, ?_, h.typed.tree⟩, fun {q} hq => ?_, fun {q} hq => ?_⟩
  · exact h.typed.free.congr (links_incRef s p) rfl fun _ => Iff.rfl
  · by_cases hqp : q = p
    · subst hqp
      have hpage : ((s.incRef q).pages q).ppRef = (s.pages q).ppRef + 1#16 := by
        simp [Kernel.incRef, setPage]
      rw [hpage, h.count hq, Function.update_self, ofNat_add_one]
      rfl
    · have hpage : (s.incRef p).pages q = s.pages q := by
        simp [Kernel.incRef, setPage, hqp]
      rw [hpage, h.count hq, Function.update_of_ne hqp]
      rfl
  · refine (h.used hq).imp (fun h0 => ?_) id
    have hm : (s.incRef p).phys = s.phys := rfl
    rw [hm]
    by_cases hqp : q = p
    · subst hqp
      rw [Function.update_self]
      omega
    · rw [Function.update_of_ne hqp]
      exact h0

/-! ## Frames that change hands -/

/-- The head of the free list becomes a pending data frame. -/
theorem Ledger.takePage (h : Ledger s dirs ρ due pend) (hl : s.pageFreeList = some p) :
    Ledger (s.takePage p) dirs (Function.update ρ p .data) due (fun q => pend q ∨ q = p) := by
  have hfree := h.typed.free.role_of_head hl
  have hcount : refCount (s.takePage p).phys dirs = refCount s.phys dirs :=
    refCount_of_entryOf_eq (h.typed.tree.entryOf_takePage hfree)
  have hpage : ∀ q, ((s.takePage p).pages q).ppRef = (s.pages q).ppRef := by
    intro q
    by_cases hqp : q = p
    · subst hqp
      simp [Kernel.takePage, setPage, zeroFrame]
    · simp [Kernel.takePage, setPage, zeroFrame, hqp]
  refine ⟨⟨h.typed.window, fun {q} hq => ?_, h.typed.free.takePage hl,
    h.typed.tree.takeData hfree⟩, fun {q} hq => ?_, fun {q} hq => ?_⟩
  · by_cases hqp : q = p
    · subst hqp
      exact h.typed.lt (by rw [hfree]; simp)
    · rw [Function.update_of_ne hqp] at hq
      exact h.typed.lt hq
  · rw [hpage, hcount]
    by_cases hqp : q = p
    · subst hqp
      rw [Function.update_self, h.count (by rw [hfree]; simp), hfree]
      rfl
    · rw [Function.update_of_ne hqp] at hq ⊢
      exact h.count hq
  · rw [hcount]
    by_cases hqp : q = p
    · exact Or.inr (Or.inr hqp)
    · rw [Function.update_of_ne hqp] at hq
      exact (h.used hq).imp id Or.inl

/-- A frame that nothing points to goes back to the free list. -/
theorem Ledger.pushFree (h : Ledger s dirs ρ due pend) (hq : ρ q = .data)
    (hc : refCount s.phys dirs q = 0) :
    Ledger (s.pushFree q) dirs (Function.update ρ q .free) due pend := by
  have hpage : ∀ x, ((s.pushFree q).pages x).ppRef = (s.pages x).ppRef := by
    intro x
    by_cases hxq : x = q
    · subst hxq
      simp [Kernel.pushFree, setPage]
    · simp [Kernel.pushFree, setPage, hxq]
  have hphys : (s.pushFree q).phys = s.phys := rfl
  refine ⟨⟨h.typed.window, fun {x} hx => ?_, h.typed.free.pushFree (by rw [hq]; simp),
    h.typed.tree.dropData hq hc id⟩, fun {x} hx => ?_, fun {x} hx => ?_⟩
  · by_cases hxq : x = q
    · subst hxq
      exact h.typed.lt (by rw [hq]; simp)
    · rw [Function.update_of_ne hxq] at hx
      exact h.typed.lt hx
  · rw [hpage, hphys]
    by_cases hxq : x = q
    · subst hxq
      rw [Function.update_self, h.count (by rw [hq]; simp), hq]
      rfl
    · rw [Function.update_of_ne hxq] at hx ⊢
      exact h.count hx
  · have hxq : x ≠ q := by
      rintro rfl
      rw [Function.update_self] at hx
      cases hx
    rw [Function.update_of_ne hxq] at hx
    exact h.used hx

/-- A pending zero frame with one pointer announced becomes a table, and the
pointer is the directory entry. -/
theorem Ledger.enterTable (h : Ledger s dirs ρ due pend) (hd : dirs e = some d)
    (hi : i < pdx utop) (habs : ¬ Has (s.phys d i) pteP) (hp : ρ p = .data)
    (hc : refCount s.phys dirs p = 0) (hz : ∀ k, s.phys p k = 0#32)
    (hw : Has w pteP) (hf : frame w = p) (hdue : due p = due' p + 1)
    (hdue' : ∀ q, q ≠ p → due' q = due q) :
    Ledger (s.setWord d i w) dirs (Function.update ρ p (.table e i)) due' pend := by
  have hcount : refCount (s.setWord d i w).phys dirs = refCount s.phys dirs :=
    refCount_of_entryOf_eq (h.typed.tree.entryOf_enterTable hd habs hp hz hf)
  refine ⟨⟨h.typed.window, fun {q} hq => ?_, ?_,
    h.typed.tree.enterTable hd hi habs hp hc hz hw hf⟩, fun {q} hq => ?_, fun {q} hq => ?_⟩
  · by_cases hqp : q = p
    · subst hqp
      exact h.typed.lt (by rw [hp]; simp)
    · rw [Function.update_of_ne hqp] at hq
      exact h.typed.lt hq
  · refine h.typed.free.congr rfl rfl fun f => ?_
    by_cases hfp : f = p
    · subst hfp
      simp [hp]
    · rw [Function.update_of_ne hfp]
  · rw [hcount]
    have hpages : (s.setWord d i w).pages = s.pages := rfl
    by_cases hqp : q = p
    · subst hqp
      rw [hpages, Function.update_self, h.count (by rw [hp]; simp), hp, hc, hdue]
      simp [Role.own, Nat.add_comm]
    · rw [Function.update_of_ne hqp] at hq ⊢
      rw [hpages, hdue' q hqp]
      exact h.count hq
  · have hqp : q ≠ p := by
      rintro rfl
      rw [Function.update_self] at hq
      cases hq
    rw [Function.update_of_ne hqp] at hq
    rw [hcount, hdue' q hqp]
    exact h.used hq

/-- An empty table leaves its directory, and its pointer is counted as gone but
not yet dropped. -/
theorem Ledger.leaveTable (h : Ledger s dirs ρ due pend) (hd : dirs e = some d)
    (ht : ρ t = .table e i) (hz : ∀ j < nptentries, s.phys t j = 0#32)
    (hdue : due' t = due t + 1) (hdue' : ∀ q, q ≠ t → due' q = due q) :
    Ledger (s.setWord d i 0#32) dirs (Function.update ρ t .data) due' pend := by
  have hcount : refCount (s.setWord d i 0#32).phys dirs = refCount s.phys dirs :=
    refCount_of_entryOf_eq (h.typed.tree.entryOf_leaveTable hd ht hz)
  refine ⟨⟨h.typed.window, fun {q} hq => ?_, ?_, h.typed.tree.leaveTable hd ht hz⟩,
    fun {q} hq => ?_, fun {q} hq => ?_⟩
  · by_cases hqt : q = t
    · subst hqt
      exact h.typed.lt (by rw [ht]; simp)
    · rw [Function.update_of_ne hqt] at hq
      exact h.typed.lt hq
  · refine h.typed.free.congr rfl rfl fun f => ?_
    by_cases hft : f = t
    · subst hft
      simp [ht]
    · rw [Function.update_of_ne hft]
  · rw [hcount]
    have hpages : (s.setWord d i 0#32).pages = s.pages := rfl
    by_cases hqt : q = t
    · subst hqt
      have hsum : refCount s.phys dirs q + Role.data.own + due' q =
          refCount s.phys dirs q + (ρ q).own + due q := by
        rw [ht, hdue, Role.own_table, Role.own_data]
        omega
      rw [hpages, Function.update_self, hsum]
      exact h.count (by rw [ht]; simp)
    · rw [Function.update_of_ne hqt] at hq ⊢
      rw [hpages, hdue' q hqt]
      exact h.count hq
  · by_cases hqt : q = t
    · subst hqt
      exact Or.inl (by rw [hdue]; omega)
    · rw [Function.update_of_ne hqt] at hq
      rw [hcount, hdue' q hqt]
      exact h.used hq

/-- A pending frame with one pointer announced becomes the directory of a new
owner, and the pointer is the owner's. -/
theorem Ledger.enterDir (h : Ledger s dirs ρ due pend) (he : dirs e = none) (helt : e < nenv)
    (hp : ρ p = .data) (hc : refCount s.phys dirs p = 0)
    (habs : ∀ i < pdx utop, ¬ Has (s.phys p i) pteP) (hdue : due p = due' p + 1)
    (hdue' : ∀ q, q ≠ p → due' q = due q) :
    Ledger s (Function.update dirs e (some p)) (Function.update ρ p (.dir e)) due' pend := by
  have hcount : refCount s.phys (Function.update dirs e (some p)) = refCount s.phys dirs := by
    refine refCount_of_entryOf_eq (entryOf_update_of_absent (fun d hd => ?_) (fun d hd => ?_))
    · rw [he] at hd
      cases hd
    · obtain rfl := Option.some.inj hd
      exact habs
  refine ⟨⟨h.typed.window, fun {q} hq => ?_, ?_, h.typed.tree.enterDir he helt hp hc habs⟩,
    fun {q} hq => ?_, fun {q} hq => ?_⟩
  · by_cases hqp : q = p
    · subst hqp
      exact h.typed.lt (by rw [hp]; simp)
    · rw [Function.update_of_ne hqp] at hq
      exact h.typed.lt hq
  · refine h.typed.free.congr rfl rfl fun f => ?_
    by_cases hfp : f = p
    · subst hfp
      simp [hp]
    · rw [Function.update_of_ne hfp]
  · rw [hcount]
    by_cases hqp : q = p
    · subst hqp
      rw [Function.update_self, h.count (by rw [hp]; simp), hp, hc, hdue]
      simp [Nat.add_comm]
    · rw [Function.update_of_ne hqp] at hq ⊢
      rw [hdue' q hqp]
      exact h.count hq
  · have hqp : q ≠ p := by
      rintro rfl
      rw [Function.update_self] at hq
      cases hq
    rw [Function.update_of_ne hqp] at hq
    rw [hcount, hdue' q hqp]
    exact h.used hq

/-- A directory without tables leaves with its owner, and its pointer is counted
as gone but not yet dropped. -/
theorem Ledger.leaveDir (h : Ledger s dirs ρ due pend) (hd : dirs e = some d)
    (habs : ∀ i < pdx utop, ¬ Has (s.phys d i) pteP) (hdue : due' d = due d + 1)
    (hdue' : ∀ q, q ≠ d → due' q = due q) :
    Ledger s (Function.update dirs e none) (Function.update ρ d .data) due' pend := by
  have hdir := h.typed.tree.dir.mp hd
  have hcount : refCount s.phys (Function.update dirs e none) = refCount s.phys dirs := by
    refine refCount_of_entryOf_eq (entryOf_update_of_absent (fun d' hd' => ?_) (fun _ hd' => ?_))
    · rw [hd] at hd'
      obtain rfl := Option.some.inj hd'
      exact habs
    · cases hd'
  refine ⟨⟨h.typed.window, fun {q} hq => ?_, ?_, h.typed.tree.leaveDir hd habs⟩,
    fun {q} hq => ?_, fun {q} hq => ?_⟩
  · by_cases hqd : q = d
    · subst hqd
      exact h.typed.lt (by rw [hdir]; simp)
    · rw [Function.update_of_ne hqd] at hq
      exact h.typed.lt hq
  · refine h.typed.free.congr rfl rfl fun f => ?_
    by_cases hfd : f = d
    · subst hfd
      simp [hdir]
    · rw [Function.update_of_ne hfd]
  · rw [hcount]
    by_cases hqd : q = d
    · subst hqd
      have hsum : refCount s.phys dirs q + Role.data.own + due' q =
          refCount s.phys dirs q + (ρ q).own + due q := by
        rw [hdir, hdue, Role.own_dir, Role.own_data]
        omega
      rw [Function.update_self, hsum]
      exact h.count (by rw [hdir]; simp)
    · rw [Function.update_of_ne hqd] at hq ⊢
      rw [hdue' q hqd]
      exact h.count hq
  · by_cases hqd : q = d
    · subst hqd
      exact Or.inl (by rw [hdue]; omega)
    · rw [Function.update_of_ne hqd] at hq
      rw [hcount, hdue' q hqd]
      exact h.used hq

/-! ## Stores that keep the roles -/

/-- The words of the frames that are neither tables nor directories do not matter. -/
theorem Typed.writeFrames (h : Typed s dirs ρ) (hn : s'.npages = s.npages)
    (hpg : s'.pages = s.pages) (hf : s'.pageFreeList = s.pageFreeList)
    (hnode : ∀ f, (ρ f).IsNode → ∀ k, s'.phys f k = s.phys f k) : Typed s' dirs ρ := by
  have hl : s'.links = s.links := by
    funext x
    simp only [links, hpg]
  refine ⟨?_, ?_, h.free.congr hl hf fun _ => Iff.rfl, ?_⟩
  · rw [hn]; exact h.window
  · rw [hn]; exact h.lt
  · refine h.tree.retag hnode (fun _ _ => rfl) (fun e' i' t' j' ht' hj' hpr => ?_)
    exact h.tree.role_of_entryOf (h.tree.entryOf_of_table ht' hj' hpr)

theorem Ledger.writeFrames (h : Ledger s dirs ρ due pend)
    (hn : s'.npages = s.npages) (hpg : s'.pages = s.pages)
    (hf : s'.pageFreeList = s.pageFreeList)
    (hnode : ∀ f, (ρ f).IsNode → ∀ k, s'.phys f k = s.phys f k) : Ledger s' dirs ρ due pend := by
  have hcount : refCount s'.phys dirs = refCount s.phys dirs :=
    refCount_of_entryOf_eq (h.typed.tree.entryOf_retag hnode)
  refine ⟨h.typed.writeFrames hn hpg hf hnode, ?_, ?_⟩
  · rw [hpg, hcount]; exact h.count
  · rw [hcount]; exact h.used

theorem Ledger.writeFrame (h : Ledger s dirs ρ due pend) (hp : ¬ (ρ p).IsNode)
    (hn : s'.npages = s.npages) (hpg : s'.pages = s.pages)
    (hf : s'.pageFreeList = s.pageFreeList)
    (hm : ∀ f, f ≠ p → ∀ k, s'.phys f k = s.phys f k) : Ledger s' dirs ρ due pend := by
  refine h.writeFrames hn hpg hf fun f hnode => hm f ?_
  rintro rfl
  exact hp hnode

/-- A store into a table moves one pointer from the old frame to the new one. -/
theorem Ledger.setTable (h : Ledger s dirs ρ due pend) (ht : ρ t = .table e i)
    (hj : j < nptentries) (hw : w = 0#32 ∨ Has w pteP ∧ ρ (frame w) = .data)
    (hdue : ∀ q, due' q + (if Has w pteP ∧ frame w = q then 1 else 0) =
      due q + (if Has (s.phys t j) pteP ∧ frame (s.phys t j) = q then 1 else 0)) :
    Ledger (s.setWord t j w) dirs ρ due' pend := by
  have hmove : ∀ q, refCount (s.setWord t j w).phys dirs q + due' q =
      refCount s.phys dirs q + due q := by
    intro q
    have hq := hdue q
    have hcount := h.typed.tree.refCount_setTable ht hj w q
    omega
  refine ⟨⟨h.typed.window, h.typed.lt, h.typed.free.congr rfl rfl fun _ => Iff.rfl,
    h.typed.tree.setTable ht hw⟩, fun {q} hq => ?_, fun {q} hq => ?_⟩
  · have hpages : (s.setWord t j w).pages = s.pages := rfl
    have hsum : refCount (s.setWord t j w).phys dirs q + (ρ q).own + due' q =
        refCount s.phys dirs q + (ρ q).own + due q := by
      have hq := hmove q
      omega
    rw [hpages, h.count hq, hsum]
  · rw [hmove q]
    exact h.used hq

theorem Ledger.orDir (h : Ledger s dirs ρ due pend) (hd : dirs e = some d)
    (hp : Has (s.phys d i) pteP) (hperm : perm.toNat < 2 ^ 12) :
    Ledger (s.setWord d i (s.phys d i ||| perm)) dirs ρ due pend := by
  have hcount : refCount (s.setWord d i (s.phys d i ||| perm)).phys dirs =
      refCount s.phys dirs :=
    refCount_of_entryOf_eq (h.typed.tree.entryOf_orDir hd hp hperm)
  refine ⟨⟨h.typed.window, h.typed.lt, h.typed.free.congr rfl rfl fun _ => Iff.rfl,
    h.typed.tree.orDir hd hp hperm⟩, ?_, ?_⟩
  · rw [hcount]
    exact h.count
  · rw [hcount]
    exact h.used

/-! ## Counting down -/

/-- The roles after one pointer to `q` is gone: the last one frees it. -/
def dropRole (s : Kernel) (dirs : ℕ → Option ℕ) (ρ : ℕ → Role) (due : ℕ → ℕ) (q : ℕ) : ℕ → Role :=
  if refCount s.phys dirs q + due q = 1 then Function.update ρ q .free else ρ

/-- The counter tells one pointer from any other number that it can hold, and
from `2 ^ 16`. -/
theorem Ledger.ppRef_eq_one_iff (h : Ledger s dirs ρ due pend) (hq : ρ q = .data)
    (hle : refCount s.phys dirs q + due q ≤ 2 ^ 16) :
    (s.pages q).ppRef = 1#16 ↔ refCount s.phys dirs q + due q = 1 := by
  have hown : (ρ q).own = 0 := by rw [hq]; rfl
  rw [h.count (by rw [hq]; simp), hown, Nat.add_zero, ← BitVec.toNat_inj, BitVec.toNat_ofNat,
    BitVec.toNat_ofNat]
  omega

theorem Ledger.decRef (h : Ledger s dirs ρ due pend) (hq : ρ q = .data) (hdue : due q = due' q + 1)
    (hdue' : ∀ x, x ≠ q → due' x = due x)
    (hpos : 0 < refCount s.phys dirs q + due' q ∨ pend' q) (hpend : ∀ x, pend x → pend' x) :
    Ledger (s.decRef q) dirs ρ due' pend' := by
  have hphys : (s.decRef q).phys = s.phys := rfl
  refine ⟨⟨h.typed.window, h.typed.lt, ?_, h.typed.tree⟩, fun {x} hx => ?_, fun {x} hx => ?_⟩
  · exact h.typed.free.congr (links_decRef s q) rfl fun _ => Iff.rfl
  · rw [hphys]
    by_cases hxq : x = q
    · subst hxq
      have hpage : ((s.decRef x).pages x).ppRef = (s.pages x).ppRef - 1#16 := by
        simp [Kernel.decRef, setPage]
      rw [hpage, h.count hx, hdue, ← Nat.add_assoc, ← ofNat_add_one, BitVec.add_sub_cancel]
    · have hpage : (s.decRef q).pages x = s.pages x := by
        simp [Kernel.decRef, setPage, hxq]
      rw [hpage, h.count hx, hdue' x hxq]
  · rw [hphys]
    by_cases hxq : x = q
    · subst hxq
      exact hpos
    · rw [hdue' x hxq]
      exact (h.used hx).imp id (hpend x)

/-- **One pointer less.**  The frame is freed exactly when that was the last
pointer to it. -/
theorem Ledger.dropRef (h : Ledger s dirs ρ due pend) (hq : ρ q = .data)
    (hle : refCount s.phys dirs q + due q ≤ 2 ^ 16) (hdue : due q = due' q + 1)
    (hdue' : ∀ x, x ≠ q → due' x = due x) :
    Ledger (s.dropRef q) dirs (dropRole s dirs ρ due q) due' pend := by
  have hone := h.ppRef_eq_one_iff hq hle
  unfold Kernel.dropRef dropRole
  by_cases h1 : refCount s.phys dirs q + due q = 1
  · rw [if_pos (hone.mpr h1), if_pos h1]
    have hc : refCount s.phys dirs q = 0 := by omega
    have hd := h.decRef hq hdue hdue' (Or.inr (Or.inr rfl : pend q ∨ q = q))
      (fun x hx => (Or.inl hx : pend x ∨ x = q))
    refine (hd.pushFree hq hc).mono fun x hx hp => ?_
    -- the frame that was pending is the one that is free now
    rcases hp with hp | rfl
    · exact hp
    · rw [Function.update_self] at hx
      cases hx
  · rw [if_neg (mt hone.mp h1), if_neg h1]
    refine h.decRef hq hdue hdue' ?_ fun _ => id
    left
    omega

end Kernel
end PmakeOs
