import PmakeOs.Lib.Simulation
import PmakeOs.User.Cow

/-!
# Copy-on-write is a copy

`Eager` says what `fork` is for: every process has pages of its own, a store changes one word
of one page of one process, and `fork` gives the child a copy of every page of the parent.
`Does` is what happens, where the copies are made when a page is first written to.  What the
processes see below `USTACKTOP` (`views`) is the same (`Sane.simulates`), as long as to begin with
user mode may read every page, no page is shared, nothing is mapped at `PFTEMP` and no page that
may be written is mapped twice (`Own`).

Each of the actions comes to its end before the next one, of whatever process, begins.  The
stack that `fork` runs on and what the upcall of a fault pushes are left out.
-/

namespace PmakeOs

open Lib Kernel

variable {s s' s₁ : Kernel} {ρ ρ' : ℕ → Role} {c d e f j k p v : ℕ} {va w w' x : Word}
  {E E' : ℕ × ℕ → Option Word} {y z : ℕ × ℕ}

namespace User

/-! ## What `fork` is for -/

/-- A page, as a process sees it. -/
@[ext] structure Page where
  writable : Bool
  words : Fin (pgsize / 4) → Word

/-- The pages of every process. -/
abbrev Views := ℕ → ℕ → Option Page

/-- What processes do. -/
inductive Act where
  /-- Another process gets its turn, or anything else that is not about address spaces. -/
  | turn
  /-- Process `c` finds `w` in its page `v`. -/
  | load (c v : ℕ) (j : Fin (pgsize / 4)) (w : Word)
  | store (c v : ℕ) (j : Fin (pgsize / 4)) (w : Word)
  /-- The child of `c` is `e`. -/
  | fork (c e : ℕ)
  | exit (e : ℕ)

/-- The page after a store. -/
def Page.set (p : Page) (j : Fin (pgsize / 4)) (w : Word) : Page :=
  { p with words := Function.update p.words j w }

/-- **`fork` copies.** -/
inductive Eager : Views → Act → Views → Prop
  | turn {V : Views} : Eager V .turn V
  | load {V : Views} {c v : ℕ} {p : Page} {j : Fin (pgsize / 4)} (hp : V c v = some p) :
      Eager V (.load c v j (p.words j)) V
  | store {V : Views} {c v : ℕ} {p : Page} {j : Fin (pgsize / 4)} {w : Word}
      (hp : V c v = some p) (hw : p.writable = true) :
      Eager V (.store c v j w)
        (Function.update V c (Function.update (V c) v (some (p.set j w))))
  | fork {V : Views} {c e : ℕ} (hne : e ≠ c) (hnew : ∀ v, V e v = none) :
      Eager V (.fork c e) (Function.update V e (V c))
  | exit {V : Views} {e : ℕ} : Eager V (.exit e) (Function.update V e fun _ => none)

/-! ## What happens -/

/-- The word of its page that `va` is in. -/
def wordOf (va : Word) : Fin (pgsize / 4) :=
  ⟨va.toNat % pgsize / 4, Nat.div_lt_of_lt_mul (Nat.mod_lt va.toNat (by decide : 0 < pgsize))⟩

/-- Process `c` is current, its directory is loaded, and no page has 32768 references or more
from page tables. -/
structure Runs (s : Kernel) (c : ℕ) : Prop where
  curenv : s.curenv = some c
  loaded : dirsOf s c = some s.thiscpu.cr3
  light : ∀ q, refCount s.phys (dirsOf s) q < 2 ^ 15

theorem Runs.caller (h : Runs s c) (hs : Settled s ρ) : Caller s ρ c :=
  ⟨hs, h.curenv, h.loaded, h.light⟩

/-- Processes load from and store to pages below `USTACKTOP`, and `fork`. -/
inductive Does (s : Kernel) : Act → Kernel → Prop
  | turn {s' : Kernel} (h : SameSpaces s s') : Does s .turn s'
  | load {c : ℕ} {va w : Word} (hc : Runs s c) (hva : pgnum va < ustackPages)
      (h : User.load s va = .ok w) : Does s (.load c (pgnum va) (wordOf va) w) s
  | store {s' : Kernel} {c : ℕ} {tf : Trapframe} {va w : Word} (hc : Runs s c)
      (hva : pgnum va < ustackPages) (h : storeCow s tf va w = .ok s') :
      Does s (.store c (pgnum va) (wordOf va) w) s'
  | fork {s' : Kernel} {c : ℕ} {first : Bool} {upcall : Word} {id : ℤ} (hc : Runs s c)
      (h : User.fork s first upcall = .ok (id, s')) (hid : 0 < id) :
      Does s (.fork c (envx (BitVec.ofInt 32 id))) s'
  | exit {s' : Kernel} {e : ℕ} (he : Live s e)
      (hlight : ∀ q, refCount s.phys (dirsOf s) q < 2 ^ 15) (h : s.envFree e = .ok s') :
      Does s (.exit e) s'

/-- A page, by its entry. -/
def pageOf (m : Phys) (w : Word) : Page :=
  ⟨decide (Has w pteW ∨ Has w pteCow), fun j => m (frame w) j⟩

/-- What the processes see below `USTACKTOP`. -/
def views (s : Kernel) : Views := fun e v =>
  if v < ustackPages then (entryOf s.phys (dirsOf s) (e, v)).map (pageOf s.phys) else none

/-! ## Nobody else writes to a page -/

/-- The entries are those of processes that share no page and have `PFTEMP` free, and **a page
that may be written has one mapping**. -/
structure Own (E : ℕ × ℕ → Option Word) : Prop where
  user : ∀ y w, E y = some w → Has w pteU
  unshared : ∀ y w, E y = some w → ¬ Has w pteShare
  exclusive : ∀ y z w w', E y = some w → E z = some w' → frame w = frame w' → Has w pteW → y = z
  temp : ∀ e, E (e, tempPage) = none

/-- A page that was mapped nowhere. -/
theorem Own.fresh (h : Own E) (hy : y.2 ≠ tempPage) (hU : Has w pteU) (hshare : ¬ Has w pteShare)
    (hnew : ∀ z w', E z = some w' → frame w' ≠ frame w) : Own (Function.update E y (some w)) := by
  have hcase : ∀ z w', Function.update E y (some w) z = some w' →
      z = y ∧ w' = w ∨ z ≠ y ∧ E z = some w' := by
    intro z w' hz
    rcases eq_or_ne z y with rfl | hzy
    · rw [Function.update_self] at hz
      exact Or.inl ⟨rfl, (Option.some.inj hz).symm⟩
    · rw [Function.update_of_ne hzy] at hz
      exact Or.inr ⟨hzy, hz⟩
  refine ⟨fun z w' hz => ?_, fun z w' hz => ?_, fun z z' w' w'' hz hz' hf hW => ?_, fun e => ?_⟩
  · rcases hcase z w' hz with ⟨-, rfl⟩ | ⟨-, hz⟩
    · exact hU
    · exact h.user z w' hz
  · rcases hcase z w' hz with ⟨-, rfl⟩ | ⟨-, hz⟩
    · exact hshare
    · exact h.unshared z w' hz
  · rcases hcase z w' hz with ⟨hzy, hw⟩ | ⟨-, h₁⟩ <;>
      rcases hcase z' w'' hz' with ⟨hzy', hw'⟩ | ⟨-, h₂⟩
    · rw [hzy, hzy']
    · exact absurd (hf.symm.trans (congrArg frame hw)) (hnew z' w'' h₂)
    · exact absurd (hf.trans (congrArg frame hw')) (hnew z w' h₁)
    · exact h.exclusive z z' w' w'' h₁ h₂ hf hW
  · rw [Function.update_of_ne]
    · exact h.temp e
    · rintro rfl
      exact hy rfl

theorem Own.grants (h : Own E) (hg : Grants E E') : Own E' := by
  rcases hg with rfl | ⟨e, w, hU, hshare, hnew, rfl⟩
  · exact h
  · exact h.fresh (show uxstackPage ≠ tempPage by decide) hU hshare hnew

/-- Fewer mappings. -/
theorem Own.mono (h : Own E) (hsub : ∀ y, E' y = none ∨ E' y = E y) : Own E' := by
  have hold : ∀ y w, E' y = some w → E y = some w := by
    intro y w hy
    rcases hsub y with h0 | h0
    · exact nomatch h0.symm.trans hy
    · rw [← h0]
      exact hy
  refine ⟨fun y w hy => h.user y w (hold y w hy), fun y w hy => h.unshared y w (hold y w hy),
    fun y z w w' hy hz => h.exclusive y z w w' (hold y w hy) (hold z w' hz), fun e => ?_⟩
  rcases hsub (e, tempPage) with h0 | h0
  · exact h0
  · rw [h0]
    exact h.temp e

/-- What `fork` leaves of an entry `w`, for the parent or the child: nobody may write to the
page, and everybody who could write to it gets a copy when he does. -/
structure Protects (w w' : Word) : Prop where
  sameFrame : frame w' = frame w
  user : Has w' pteU
  unshared : ¬ Has w' pteShare
  noWrite : ¬ Has w' pteW
  cow : Has w' pteCow ↔ Has w pteW ∨ Has w pteCow

theorem protects_cowEntry (h : Has w pteW ∨ Has w pteCow) : Protects w (cowEntry (frame w)) := by
  have hbits : Has (pteCow ||| pteU ||| pteP) pteU ∧ ¬ Has (pteCow ||| pteU ||| pteP) pteShare ∧
      ¬ Has (pteCow ||| pteU ||| pteP) pteW ∧ Has (pteCow ||| pteU ||| pteP) pteCow := by decide
  have hP : ¬ Has pteP pteShare ∧ ¬ Has pteP pteW := by decide
  obtain ⟨hU, hshare, hW, hcow⟩ := hbits
  refine ⟨frame_mapping w (by decide), ?_, ?_, ?_, iff_of_true ?_ h⟩
  · exact has_entry hU
  · exact not_has_entry (by decide) hshare hP.1
  · exact not_has_entry (by decide) hW hP.2
  · exact has_entry hcow

theorem protects_readOnly (h : ¬ (Has w pteW ∨ Has w pteCow)) :
    Protects w (page2pa (frame w) ||| (pteU ||| pteP) ||| pteP) := by
  have hbits : Has (pteU ||| pteP) pteU ∧ ¬ Has (pteU ||| pteP) pteShare ∧
      ¬ Has (pteU ||| pteP) pteW ∧ ¬ Has (pteU ||| pteP) pteCow := by decide
  have hP : ¬ Has pteP pteShare ∧ ¬ Has pteP pteW ∧ ¬ Has pteP pteCow := by decide
  obtain ⟨hU, hshare, hW, hcow⟩ := hbits
  refine ⟨frame_mapping w (by decide), ?_, ?_, ?_, iff_of_false ?_ h⟩
  · exact has_entry hU
  · exact not_has_entry (by decide) hshare hP.1
  · exact not_has_entry (by decide) hW hP.2.1
  · exact not_has_entry (by decide) hcow hP.2.2

theorem protects_copyOf (hU : Has w pteU) (hshare : ¬ Has w pteShare) :
    ∃ w', copyOf w = some w' ∧ Protects w w' := by
  unfold copyOf
  rw [if_pos hU, if_neg hshare]
  by_cases h : Has w pteW ∨ Has w pteCow
  · rw [if_pos h]
    exact ⟨_, rfl, protects_cowEntry h⟩
  · rw [if_neg h]
    exact ⟨_, rfl, protects_readOnly h⟩

theorem protects_keptOf (hU : Has w pteU) (hshare : ¬ Has w pteShare) :
    Protects w (keptOf w) := by
  unfold keptOf
  by_cases h : Has w pteW ∨ Has w pteCow
  · rw [if_pos ⟨hU, hshare, h⟩]
    exact protects_cowEntry h
  · rw [if_neg fun h0 => h h0.2.2]
    exact ⟨rfl, hU, hshare, fun h0 => h (Or.inl h0), iff_of_false (fun h0 => h (Or.inr h0)) h⟩

/-- Whose page the page of `y` is after `fork`. -/
theorem Own.of_forkEntries (h : Own E) (hy : forkEntries E c e y = some w') :
    (∃ w, E (if y.1 = e then (c, y.2) else y) = some w ∧ Protects w w') ∧
        (y.1 = e → y.2 < ustackPages) ∨
      y.1 ≠ e ∧ ¬ (y.1 = c ∧ y.2 < ustackPages) ∧ E y = some w' := by
  unfold forkEntries at hy
  by_cases he : y.1 = e
  · rw [if_pos he] at hy ⊢
    by_cases hv : y.2 < ustackPages
    · rw [if_pos hv] at hy
      obtain ⟨w, hw, hcopy⟩ := Option.bind_eq_some_iff.mp hy
      obtain ⟨w₁, hw₁, hp⟩ := protects_copyOf (h.user _ w hw) (h.unshared _ w hw)
      obtain rfl := Option.some.inj (hw₁.symm.trans hcopy)
      exact Or.inl ⟨⟨w, hw, hp⟩, fun _ => hv⟩
    · rw [if_neg hv] at hy
      cases hy
  rw [if_neg he] at hy ⊢
  by_cases hc : y.1 = c ∧ y.2 < ustackPages
  · rw [if_pos hc] at hy
    obtain ⟨w, hw, rfl⟩ := Option.map_eq_some_iff.mp hy
    exact Or.inl ⟨⟨w, hw, protects_keptOf (h.user _ w hw) (h.unshared _ w hw)⟩,
      fun h0 => absurd h0 he⟩
  · rw [if_neg hc] at hy
    exact Or.inr ⟨he, hc, hy⟩

/-- **`fork` keeps pages apart.** -/
theorem Own.forkEntries (h : Own E) : Own (User.forkEntries E c e) := by
  refine ⟨fun y w' hy => ?_, fun y w' hy => ?_, fun y z w' w'' hy hz hf hW => ?_, fun e' => ?_⟩
  · rcases h.of_forkEntries hy with ⟨⟨w, -, hp⟩, -⟩ | ⟨-, -, hw⟩
    · exact hp.user
    · exact h.user y w' hw
  · rcases h.of_forkEntries hy with ⟨⟨w, -, hp⟩, -⟩ | ⟨-, -, hw⟩
    · exact hp.unshared
    · exact h.unshared y w' hw
  · rcases h.of_forkEntries hy with ⟨⟨w, -, hp⟩, -⟩ | ⟨-, hyc, hw⟩
    · exact absurd hW hp.noWrite
    -- a page that may be written is none of those that `fork` has come across
    rcases h.of_forkEntries hz with ⟨⟨w₁, hw₁, hp⟩, hlt⟩ | ⟨-, -, hw₁⟩
    · have heq := h.exclusive y _ w' w₁ hw hw₁ (hf.trans hp.sameFrame) hW
      by_cases hze : z.1 = e
      · rw [if_pos hze] at heq
        rw [heq] at hyc
        exact absurd ⟨rfl, hlt hze⟩ hyc
      · rw [if_neg hze] at heq
        exact heq
    · exact h.exclusive y z w' w'' hw hw₁ hf hW
  · have hc := h.temp c
    have he := h.temp e'
    unfold User.forkEntries
    dsimp only
    rw [hc, he]
    split_ifs <;> rfl

/-! ## One action -/

theorem views_of_lt (hv : v < ustackPages) :
    views s e v = (entryOf s.phys (dirsOf s) (e, v)).map (pageOf s.phys) := if_pos hv

theorem views_of_not_lt (hv : ¬ v < ustackPages) : views s e v = none := if_neg hv

theorem pgnum_lt_upn_of_lt (hva : v < ustackPages) : v < upn :=
  lt_trans hva (by decide)

/-- The page that `w'` makes of the page of `w`. -/
theorem Protects.pageOf_eq {m m' : Phys} (hp : Protects w w')
    (hm : ∀ j, m' (frame w) j = m (frame w) j) : pageOf m' w' = pageOf m w := by
  have hno := hp.noWrite
  have hcow := hp.cow
  unfold pageOf
  simp only [hno, hcow, false_or, hp.sameFrame, hm]

/-- The page that `w'` makes of the page of `w`, when a word of it has been written. -/
theorem pageOf_eq_set {m m' : Phys} {i : Fin (pgsize / 4)}
    (hright : Has w' pteW ∨ Has w' pteCow ↔ Has w pteW ∨ Has w pteCow)
    (hword : m' (frame w') i = x)
    (hwords : ∀ j < pgsize / 4, j ≠ i → m' (frame w') j = m (frame w) j) :
    pageOf m' w' = (pageOf m w).set i x := by
  refine Page.ext ?_ (funext fun j => ?_)
  · simp only [pageOf, Page.set, hright]
  · show m' (frame w') j = Function.update (fun j : Fin (pgsize / 4) => m (frame w) j) i x j
    rcases eq_or_ne j i with rfl | hji
    · rw [Function.update_self, hword]
    · rw [Function.update_of_ne hji, hwords j j.isLt fun h0 => hji (Fin.ext h0)]

/-- Where entry and contents are the same, the view is. -/
theorem views_congr (hent : entryOf s'.phys (dirsOf s') (e, v) = entryOf s.phys (dirsOf s) (e, v))
    (hwords : ∀ w, entryOf s.phys (dirsOf s) (e, v) = some w →
      ∀ j, s'.phys (frame w) j = s.phys (frame w) j) : views s' e v = views s e v := by
  unfold views
  rw [hent]
  cases hw : entryOf s.phys (dirsOf s) (e, v) with
  | none => rfl
  | some w =>
    have hpage : pageOf s'.phys w = pageOf s.phys w := by
      unfold pageOf
      simp only [hwords w hw]
    simp only [Option.map_some, hpage]

/-- A word of one page has been written. -/
theorem views_store (hva : pgnum va < ustackPages)
    (hpage : (entryOf s'.phys (dirsOf s') (c, pgnum va)).map (pageOf s'.phys) =
      some ((pageOf s.phys w).set (wordOf va) x))
    (hother : ∀ e v, (e, v) ≠ (c, pgnum va) → views s' e v = views s e v) :
    views s' = Function.update (views s) c (Function.update (views s c) (pgnum va)
      (some ((pageOf s.phys w).set (wordOf va) x))) := by
  funext e v
  by_cases he : e = c
  · subst he
    rw [Function.update_self]
    by_cases hv : v = pgnum va
    · rw [hv, Function.update_self, views_of_lt hva, hpage]
    · rw [Function.update_of_ne hv]
      exact hother e v fun h0 => hv (Prod.mk.inj h0).2
  · rw [Function.update_of_ne he]
    exact hother e v fun h0 => he (Prod.mk.inj h0).1

/-- Nothing is lost: the state of the kernel, and the pages of the processes. -/
structure Sane (s : Kernel) : Prop where
  settled : ∃ ρ, Settled s ρ
  own : Own (entryOf s.phys (dirsOf s))

/-- The page may be written, so it is mapped here only. -/
theorem Sane.store_writable (h : Sane s) (hva : pgnum va < ustackPages)
    (hw : entryOf s.phys (dirsOf s) (c, pgnum va) = some w) (hW : Has w pteW)
    (hs' : s' = s.setWord (frame w) (va.toNat % pgsize / 4) x) :
    views s' = Function.update (views s) c (Function.update (views s c) (pgnum va)
      (some ((pageOf s.phys w).set (wordOf va) x))) ∧ Sane s' := by
  subst hs'
  obtain ⟨ρ, hs⟩ := h.settled
  have ha : Aloof s (s.setWord (frame w) (va.toNat % pgsize / 4) x) := aloof_setWord hw
  have hent := hs.entryOf_aloof ha
  refine ⟨views_store hva ?_ fun e v hne => views_congr (congrFun hent _) fun w' hw' j => ?_,
    ⟨_, hs.aloof ha⟩, by rw [hent]; exact h.own⟩
  · rw [hent, hw, Option.map_some]
    exact congrArg some (pageOf_eq_set Iff.rfl (if_pos ⟨rfl, rfl⟩)
      fun j _ hj => if_neg fun h0 => hj h0.2)
  · refine if_neg fun h0 => hne ?_
    exact (h.own.exclusive _ _ w w' hw hw' h0.1.symm hW).symm

/-- The delivery of a fault changes the exception stack only. -/
theorem Sane.kept_of_delivered {s₀ : Kernel} (h : Sane s) (hdel : Delivered s s₀ c)
    (hy : y.2 < ustackPages) (hw : entryOf s.phys (dirsOf s) y = some w) :
    s₀.phys (frame w) = s.phys (frame w) := by
  refine (hdel.words (frame w)).resolve_right ?_
  rintro ⟨k, w', hk, hw', hW, hf⟩
  have hyk := h.own.exclusive (c, k) y w' w hw' hw hf hW
  rw [← hyk] at hy
  exact absurd hk (Nat.not_le.mpr hy)

/-- The page is a new one. -/
theorem Sane.store_replaced {s₀ : Kernel} (h : Sane s) (hs : Settled s ρ)
    (hva : pgnum va < ustackPages) (hw : entryOf s.phys (dirsOf s) (c, pgnum va) = some w)
    (hcow : Has w pteCow) (hdel : Delivered s s₀ c)
    (hrep : Replaces s₀ ρ s₁ ρ' c (pgnum va) p w)
    (hs' : s' = s₁.setWord p (va.toNat % pgsize / 4) x) :
    views s' = Function.update (views s) c (Function.update (views s c) (pgnum va)
      (some ((pageOf s.phys w).set (wordOf va) x))) ∧ Sane s' := by
  subst hs'
  have hent₀ := hs.entryOf_aloof hdel.aloof
  have hown : entryOf s₁.phys (dirsOf s₁) (c, pgnum va) = some (ownEntry p) := by
    rw [hrep.entries, Function.update_self]
  have hframe : frame (ownEntry p) = p := frame_entry hrep.window (by decide)
  have ha : Aloof s₁ (s₁.setWord p (va.toNat % pgsize / 4) x) := by
    have h0 := aloof_setWord (j := va.toNat % pgsize / 4) (x := x) hown
    rwa [hframe] at h0
  have hent := (hrep.settled.entryOf_aloof ha).trans hrep.entries
  rw [hent₀] at hent
  have hne : ∀ z w', entryOf s.phys (dirsOf s) z = some w' → frame w' ≠ p := by
    intro z w' hw' h0
    have hdata := hs.ledger.typed.tree.role_of_entryOf hw'
    rw [h0, hrep.fresh] at hdata
    cases hdata
  obtain ⟨hU, hW⟩ := has_ownEntry p
  have hright : Has (ownEntry p) pteW ∨ Has (ownEntry p) pteCow ↔ Has w pteW ∨ Has w pteCow :=
    iff_of_true (Or.inl hW) (Or.inr hcow)
  have hmem : pgnum va ≠ tempPage := by
    intro h0
    rw [h0, h.own.temp c] at hw
    cases hw
  have hother : ∀ e v, (e, v) ≠ (c, pgnum va) →
      views (s₁.setWord p (va.toNat % pgsize / 4) x) e v = views s e v := by
    intro e v hev
    by_cases hv : v < ustackPages
    · refine views_congr ?_ fun w' hw' j => ?_
      · rw [hent, Function.update_of_ne hev]
      · rw [← h.kept_of_delivered (y := (e, v)) hdel hv hw',
          ← hrep.words _ (hs.ledger.typed.tree.role_of_entryOf hw') j]
        exact if_neg fun h0 => hne _ w' hw' h0.1
    · rw [views_of_not_lt hv, views_of_not_lt hv]
  refine ⟨views_store hva ?_ hother, ⟨_, hrep.settled.aloof ha⟩, ?_⟩
  · rw [hent, Function.update_self, Option.map_some]
    refine congrArg some (pageOf_eq_set hright ?_ fun j hj hji => ?_)
    · rw [hframe]
      exact if_pos ⟨rfl, rfl⟩
    · rw [hframe, ← h.kept_of_delivered (y := (c, pgnum va)) hdel hva hw, ← hrep.copied j hj]
      exact if_neg fun h0 => hji h0.2
  · rw [hent]
    refine h.own.fresh hmem hU ?_ fun z w' hz => by rw [hframe]; exact hne z w' hz
    have hno : ¬ Has (pteP ||| pteU ||| pteW) pteShare ∧ ¬ Has pteP pteShare := by decide
    exact not_has_entry (by decide) hno.1 hno.2

/-- **A store.** -/
theorem Sane.store {tf : Trapframe} (h : Sane s) (hc : Runs s c) (hva : pgnum va < ustackPages)
    (hrun : storeCow s tf va x = .ok s') :
    Eager (views s) (.store c (pgnum va) (wordOf va) x) (views s') ∧ Sane s' := by
  obtain ⟨ρ, hs⟩ := h.settled
  obtain ⟨w, hw, hend⟩ := (hc.caller hs).storeCow (pgnum_lt_upn_of_lt hva) (h.own.temp c) hrun
  have hview : views s c (pgnum va) = some (pageOf s.phys w) := by
    rw [views_of_lt hva, hw, Option.map_some]
  have hwrite : (pageOf s.phys w).writable = true := by
    rcases hend with ⟨-, hW, -⟩ | ⟨-, hcow, -, -⟩
    · exact decide_eq_true (Or.inl hW)
    · exact decide_eq_true (Or.inr hcow)
  suffices hsuf : views s' = Function.update (views s) c (Function.update (views s c) (pgnum va)
      (some ((pageOf s.phys w).set (wordOf va) x))) ∧ Sane s' by
    rw [hsuf.1]
    exact ⟨.store hview hwrite, hsuf.2⟩
  rcases hend with ⟨-, hW, hs'⟩ | ⟨-, hcow, -, s₀, s₁, p, ρ', hdel, hrep, hs'⟩
  · exact h.store_writable hva hw hW hs'
  · exact h.store_replaced hs hva hw hcow hdel hrep hs'

/-- **`fork`.** -/
theorem Sane.fork {first : Bool} {upcall : Word} {id : ℤ} (h : Sane s) (hc : Runs s c)
    (hrun : User.fork s first upcall = .ok (id, s')) (hid : 0 < id) :
    Eager (views s) (.fork c (envx (BitVec.ofInt 32 id))) (views s') ∧ Sane s' := by
  obtain ⟨ρ, hs⟩ := h.settled
  obtain ⟨ρ', hs', -, -, hdup⟩ := (hc.caller hs).fork hrun hid
  generalize envx (BitVec.ofInt 32 id) = e at hdup
  have hviews : views s' = Function.update (views s) e (views s c) := by
    funext e' v
    by_cases hv : v < ustackPages
    · by_cases he : e' = e
      · -- the child
        rw [he, Function.update_self, views_of_lt hv, views_of_lt hv, hdup.child v hv]
        cases hw : entryOf s.phys (dirsOf s) (c, v) with
        | none => rfl
        | some w =>
          obtain ⟨w', hcopy, hp⟩ := protects_copyOf (h.own.user _ w hw) (h.own.unshared _ w hw)
          rw [Option.bind_some, hcopy, Option.map_some, Option.map_some,
            hp.pageOf_eq (hdup.words _ w hv hw)]
      rw [Function.update_of_ne he]
      by_cases hc' : e' = c
      · rw [hc', views_of_lt hv, views_of_lt hv, hdup.parent v hv]
        cases hw : entryOf s.phys (dirsOf s) (c, v) with
        | none => rfl
        | some w =>
          have hp := protects_keptOf (h.own.user _ w hw) (h.own.unshared _ w hw)
          rw [Option.map_some, Option.map_some, Option.map_some,
            hp.pageOf_eq (hdup.words _ w hv hw)]
      · exact views_congr (hdup.other _ hv hc' he) fun w hw => hdup.words _ w hv hw
    · by_cases he : e' = e
      · rw [he, Function.update_self, views_of_not_lt hv, views_of_not_lt hv]
      · rw [Function.update_of_ne he, views_of_not_lt hv, views_of_not_lt hv]
  obtain ⟨E, hg, hg'⟩ := hdup.entries
  rw [hviews]
  refine ⟨.fork hdup.ne fun v => ?_, ⟨ρ', hs'⟩, ((h.own.grants hg).forkEntries).grants hg'⟩
  by_cases hv : v < ustackPages
  · rw [views_of_lt hv, hdup.fresh v hv, Option.map_none]
  · exact views_of_not_lt hv

/-- **`env_free`.** -/
theorem Sane.exit (h : Sane s) (he : Live s e)
    (hlight : ∀ q, refCount s.phys (dirsOf s) q < 2 ^ 15) (hrun : s.envFree e = .ok s') :
    Eager (views s) (.exit e) (views s') ∧ Sane s' := by
  obtain ⟨ρ, hs⟩ := h.settled
  obtain ⟨d, -, hd⟩ := hs.layout.dirsOf_eq he
  have hent := hs.entryOf_of_envFree hd hrun
  have hviews : views s' = Function.update (views s) e fun _ => none := by
    funext e' v
    by_cases he' : e' = e
    · rw [he', Function.update_self, views, hent, if_pos rfl, Option.map_none, ite_self]
    · rw [Function.update_of_ne he']
      refine views_congr ((hent _).trans (if_neg he')) fun w hw j => ?_
      have hdata := hs.ledger.typed.tree.role_of_entryOf hw
      refine words_of_envFree hs.ledger.typed hd hrun _ j ?_ fun i => by rw [hdata]; simp
      rintro rfl
      rw [hs.ledger.typed.tree.dir.mp hd] at hdata
      cases hdata
  obtain ⟨s₁, ρ', hrun', hs', -⟩ := hs.envFree (Q := fun _ => True) he
    (fun v w _ => (hlight (frame w)).le.trans (by decide)) trivial
  obtain rfl := Except.ok.inj (hrun'.symm.trans hrun)
  rw [hviews]
  refine ⟨.exit, ⟨ρ', hs'⟩, h.own.mono fun y => ?_⟩
  rw [hent y]
  split
  · exact Or.inl rfl
  · exact Or.inr rfl

/-- **What happens is what `Eager` says.** -/
theorem Sane.simulates {a : Act} (h : Sane s) (hd : Does s a s') :
    Eager (views s) a (views s') ∧ Sane s' := by
  cases hd with
  | turn hsame =>
    obtain ⟨ρ, hs⟩ := h.settled
    have hviews : views s' = views s := by
      funext e v
      exact views_congr (congrFun hsame.entries _) fun w _ j => by rw [hsame.phys]
    rw [hviews]
    refine ⟨.turn, ⟨ρ, hs.aloof hsame.aloof⟩, ?_⟩
    rw [hsame.entries]
    exact h.own
  | load hc hva hload =>
    rename_i c va w
    refine ⟨?_, h⟩
    obtain ⟨ρ, hs⟩ := h.settled
    cases hw : entryOf s.phys (dirsOf s) (c, pgnum va) with
    | none =>
      rw [load_none hc.loaded (pgnum_lt_upn_of_lt hva) hw] at hload
      cases hload
    | some w' =>
      rw [load_eq hs hc.loaded hw, if_pos (h.own.user _ w' hw)] at hload
      obtain rfl := Except.ok.inj hload
      refine .load (p := pageOf s.phys w') (j := wordOf va) ?_
      rw [views_of_lt hva, hw, Option.map_some]
  | store hc hva hstore => exact h.store hc hva hstore
  | fork hc hfork hid => exact h.fork hc hfork hid
  | exit he hlight hfree => exact h.exit he hlight hfree

end User
end PmakeOs
