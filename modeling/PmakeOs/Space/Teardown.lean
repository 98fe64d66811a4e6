import PmakeOs.Lib.Loop
import PmakeOs.Space.Handlers

/-!
# `env_free` keeps the address spaces sound

The teardown of an environment is two nested loops over its directory.  The
inner one removes every mapping of a table, the outer one drops the table; after
both the user half of the directory is empty, so the directory itself can be
given back and the slot closed.

The inner loop is followed through the map `entryOf`: each round makes one more
point undefined and never defines one, so that after the last round every entry
of the table is zero.
-/

namespace PmakeOs

open Lib

namespace Kernel

variable {s s' : Kernel} {ρ ρ' : ℕ → Role} {Q : ℕ → Prop} {e d i t : ℕ}

/-- The counter of no page that environment `e` maps is beyond what it can hold. -/
def Countable (s : Kernel) (e : ℕ) : Prop :=
  ∀ vpn w, entryOf s.phys (dirsOf s) (e, vpn) = some w →
    refCount s.phys (dirsOf s) (frame w) ≤ 2 ^ 16

theorem Removed.countable (h : Removed s s' (dirsOf s) ρ ρ' (fun _ => 0) e i)
    (hmem : (e, i) ∈ userPages) (hs : SameSlots s s') (hc : Countable s e) : Countable s' e := by
  intro vpn w hw
  have hmove := refCount_update hmem h.entries (frame w)
  rw [hs.dirsOf, h.entries] at hw
  rw [hs.dirsOf]
  rcases eq_or_ne vpn i with rfl | hne
  · rw [Function.update_self] at hw
    cases hw
  · rw [Function.update_of_ne (fun h0 => hne (Prod.mk.inj h0).2)] at hw
    have hq := hc vpn w hw
    simp only [Option.map_none, reduceCtorEq, if_false] at hmove
    omega

/-! ## Pages of no concern -/

theorem pages_dropRef_of_ne {f q : ℕ} (hf : f ≠ q) : (s.dropRef q).pages f = s.pages f := by
  unfold Kernel.dropRef
  split
  · simp [Kernel.pushFree, Kernel.decRef, setPage, hf]
  · simp [Kernel.decRef, setPage, hf]

theorem pages_tlbInvalidate (s : Kernel) (d : ℕ) (va : Word) :
    (s.tlbInvalidate d va).pages = s.pages := by
  unfold Kernel.tlbInvalidate
  split
  · rfl
  · split <;> rfl

/-- `page_remove` writes the record of a data frame. -/
theorem Typed.pages_of_pageRemove {dirs : ℕ → Option ℕ} {va : Word} {f : ℕ} (h : Typed s dirs ρ)
    (hd : dirs e = some d) (hva : va < utop) (hrun : s.pageRemove d va = .ok s')
    (hf : ρ f = .reserved) : s'.pages f = s.pages f := by
  rcases h.pageLookup hd hva with ⟨-, hlook⟩ | ⟨t, w, -, -, -, -, -, hdata, -, hlook⟩
  · rw [pageRemove_of_lookup_none hlook] at hrun
    obtain rfl := Except.ok.inj hrun
    rfl
  · have hlink : s.links (frame w) = none := h.free.link (by rw [hdata]; simp)
    rw [pageRemove_of_lookup_some hlook hlink] at hrun
    obtain rfl := Except.ok.inj hrun
    have hne : f ≠ frame w := ne_of_role ρ (by rw [hf, hdata]; simp)
    rw [unmapEntry, pages_tlbInvalidate]
    exact pages_dropRef_of_ne hne

/-! ## One table -/

/-- The state of the inner loop after the first `n` entries of table `i`. -/
structure Emptying (Q : ℕ → Prop) (s : Kernel) (ρ : ℕ → Role) (e d i n : ℕ) (s' : Kernel) :
    Prop where
  sound : ∃ ρ', Settled s' ρ' ∧ Effects Q (s, ρ) (s', ρ')
  only : MemoryOnly s s'
  countable : Countable s' e
  dir : ∀ k, s'.phys d k = s.phys d k
  pages : ∀ f, ρ f = .reserved → s'.pages f = s.pages f
  empty : ∀ j < n, entryOf s'.phys (dirsOf s) (e, i * nptentries + j) = none

theorem Sound.envFreeTable (h : Settled s ρ) (hd : dirsOf s e = some d) (hi : i < pdx utop)
    (hp : Has (s.phys d i) pteP) (ht : frame (s.phys d i) = t) (hc : Countable s e) (hQ : Q e) :
    ∃ s', s.envFreeTable d i t = .ok s' ∧ Emptying Q s ρ e d i nptentries s' := by
  refine foldlM_range_ok (I := Emptying Q s ρ e d i)
    ⟨⟨ρ, h, .refl⟩, .refl s, hc, fun _ => rfl, fun _ _ => rfl,
      fun j hj => absurd hj (Nat.not_lt_zero j)⟩ ?_
  intro n hn s₁ hI
  obtain ⟨ρ₁, h₁, he₁⟩ := hI.sound
  have hdirs : dirsOf s₁ = dirsOf s := hI.only.sameSlots.dirsOf
  have hd₁ : dirsOf s₁ e = some d := by rw [hdirs]; exact hd
  have hp₁ : Has (s₁.phys d i) pteP := by rw [hI.dir]; exact hp
  have ht₁ : frame (s₁.phys d i) = t := by rw [hI.dir]; exact ht
  have hat : ∀ m : Phys, Has (m d i) pteP → frame (m d i) = t → ∀ j < nptentries,
      entryOf m (dirsOf s) (e, i * nptentries + j) =
        if Has (m t j) pteP then some (m t j) else none := by
    intro m hm hmt j hj
    rw [entryOf_of_present m hd hi hm hj, hmt]
  by_cases hpr : Has (s₁.phys t n) pteP
  · have hva : pgaddr i n 0 < utop := by
      have hi' : i < npdentries := lt_trans hi (by decide)
      rw [lt_utop_iff, pdx_pgaddr hi' hn]
      exact hi
    have hpg : pgnum (pgaddr i n 0) = i * nptentries + n := by
      have hi' : i < npdentries := lt_trans hi (by decide)
      rw [pgnum_eq_pdx_ptx, pdx_pgaddr hi' hn, ptx_pgaddr hi' hn]
    obtain ⟨s₂, ρ₂, hrun, h₂, hm₂, hr₂, he₂⟩ := h₁.pageRemove hd₁ hva (hI.countable _)
      (fun _ => hQ)
    rw [hpg] at hr₂
    have hmem : (e, i * nptentries + n) ∈ userPages := by
      rw [mem_userPages]
      exact ⟨h.ledger.typed.tree.owner_lt hd, pageNo_lt hi hn⟩
    refine ⟨s₂, by rw [if_pos hpr]; exact hrun, ⟨ρ₂, h₂, he₁.trans he₂⟩, hI.only.trans hm₂,
      hr₂.countable hmem hm₂.sameSlots hI.countable, fun k => ?_, fun f hf => ?_, fun j hj => ?_⟩
    · have hdir := h₁.ledger.typed.tree.dir.mp hd₁
      rw [hr₂.phys d k (fun i' => by rw [hdir]; simp), hI.dir]
    · rw [h₁.ledger.typed.pages_of_pageRemove hd₁ hva hrun ((he₁.reserved_iff f).mpr hf)]
      exact hI.pages f hf
    · rw [← hdirs, hr₂.entries]
      by_cases hjn : j = n
      · subst hjn
        rw [Function.update_self]
      · have hne : (e, i * nptentries + j) ≠ (e, i * nptentries + n) := by
          intro h0
          have := (Prod.mk.inj h0).2
          omega
        rw [Function.update_of_ne hne, hdirs]
        exact hI.empty j (by omega)
  · refine ⟨s₁, by rw [if_neg hpr]; rfl, ⟨ρ₁, h₁, he₁⟩, hI.only, hI.countable, hI.dir,
      hI.pages, fun j hj => ?_⟩
    by_cases hjn : j = n
    · subst hjn
      rw [hat s₁.phys hp₁ ht₁ j hn, if_neg hpr]
    · exact hI.empty j (by omega)

/-! ## The directory -/

/-- The state of the outer loop after the first `n` directory entries. -/
structure Clearing (Q : ℕ → Prop) (s : Kernel) (ρ : ℕ → Role) (e d n : ℕ) (s' : Kernel) :
    Prop where
  sound : ∃ ρ', Settled s' ρ' ∧ Effects Q (s, ρ) (s', ρ')
  only : MemoryOnly s s'
  countable : Countable s' e
  pages : ∀ f, ρ f = .reserved → s'.pages f = s.pages f
  empty : ∀ k < n, ¬ Has (s'.phys d k) pteP

/-- A table whose entries are all zero is dropped, and freed. -/
theorem Sound.dropTable (h : Settled s ρ) (hd : dirsOf s e = some d) (hi : i < pdx utop)
    (ht : ρ t = .table e i) (hz : ∀ j < nptentries, s.phys t j = 0#32) (hQ : Q e) :
    (s.setWord d i 0#32).pageDecref t = .ok ((s.setWord d i 0#32).dropRef t) ∧
      Settled ((s.setWord d i 0#32).dropRef t) (Function.update ρ t .free) ∧
      Effects Q (s, ρ) ((s.setWord d i 0#32).dropRef t, Function.update ρ t .free) := by
  have heff : Effect Q (s, ρ) ((s.setWord d i 0#32).dropRef t, Function.update ρ t .free) :=
    .dropTable hd ht hi hQ
  have hoff : ∀ q, q ≠ t → Function.update (fun _ => 0 : ℕ → ℕ) t 1 q = 0 :=
    fun q hq => Function.update_of_ne hq _ _
  have h₁ := h.ledger.leaveTable hd ht hz (Function.update_self t 1 (fun _ => 0)) hoff
  have hdata : Function.update ρ t .data t = .data := Function.update_self _ _ _
  have hlink : (s.setWord d i 0#32).links t = none :=
    h.ledger.typed.free.link (p := t) (by rw [ht]; simp)
  have hzero : refCount (s.setWord d i 0#32).phys (dirsOf s) t = 0 := by
    rw [refCount_of_entryOf_eq (h.ledger.typed.tree.entryOf_leaveTable hd ht hz)]
    exact h.ledger.typed.tree.refCount_eq_zero (by rw [ht]; simp)
  have hone : refCount (s.setWord d i 0#32).phys (dirsOf s) t +
      Function.update (fun _ => 0 : ℕ → ℕ) t 1 t = 1 := by
    rw [hzero, Function.update_self]
  have h₂ := h₁.dropRef hdata (by rw [hone]; decide) (Function.update_self t 1 (fun _ => 0))
    (fun q hq => (hoff q hq).symm)
  rw [dropRole, if_pos hone, Function.update_idem] at h₂
  have hdirs : dirsOf ((s.setWord d i 0#32).dropRef t) = dirsOf s := by
    have henvs : ((s.setWord d i 0#32).dropRef t).envs = s.envs := envs_dropRef _ t
    funext e'
    rw [dirsOf, henvs, dirsOf]
  rw [← hdirs] at h₂
  exact ⟨pageDecref_of_link hlink, h.step heff h₂, .single h heff⟩

theorem Sound.envFreePde (h : Settled s ρ) (hd : dirsOf s e = some d) (hi : i < pdx utop)
    (hc : Countable s e) (hQ : Q e) :
    ∃ s' ρ', Kernel.envFreePde d s i = .ok s' ∧ Settled s' ρ' ∧ MemoryOnly s s' ∧ Countable s' e ∧
      ¬ Has (s'.phys d i) pteP ∧ (∀ k, k ≠ i → s'.phys d k = s.phys d k) ∧
      (∀ f, ρ f = .reserved → s'.pages f = s.pages f) ∧ Effects Q (s, ρ) (s', ρ') := by
  unfold Kernel.envFreePde
  by_cases hp : Has (s.phys d i) pteP
  · have htab := h.ledger.typed.tree.table hd hi hp
    have htlt := h.ledger.typed.lt (p := frame (s.phys d i)) (by rw [htab]; simp)
    have htw := lt_of_lt_of_le htlt h.ledger.typed.window
    obtain ⟨s₁, hrun, hem⟩ := h.envFreeTable hd hi hp rfl hc hQ
    obtain ⟨ρ₁, h₁, he₁⟩ := hem.sound
    have hdirs : dirsOf s₁ = dirsOf s := hem.only.sameSlots.dirsOf
    have hd₁ : dirsOf s₁ e = some d := by rw [hdirs]; exact hd
    have hp₁ : Has (s₁.phys d i) pteP := by rw [hem.dir]; exact hp
    have htab₁ := h₁.ledger.typed.tree.table hd₁ hi hp₁
    rw [hem.dir] at htab₁
    have hz : ∀ j < nptentries, s₁.phys (frame (s.phys d i)) j = 0#32 := by
      intro j hj
      rcases h₁.ledger.typed.tree.entry htab₁ hj with h0 | ⟨hpr, -⟩
      · exact h0
      · have hat := h₁.ledger.typed.tree.entryOf_of_table htab₁ hj hpr
        rw [hdirs, hem.empty j hj] at hat
        cases hat
    obtain ⟨hdec, h₂, he₂⟩ := h₁.dropTable (Q := Q) hd₁ hi htab₁ hz hQ
    have hpa : (s₁.setWord d i 0#32).pa2page (pteAddr (s.phys d i)) =
        .ok (frame (s.phys d i)) := pa2page_of_lt (by
      show frame (s.phys d i) < s₁.npages
      rw [hem.only.npages]
      exact htlt)
    have hm₂ : MemoryOnly s₁ ((s₁.setWord d i 0#32).dropRef (frame (s.phys d i))) :=
      (MemoryOnly.setWord s₁ d i 0#32).trans (memoryOnly_of_pageDecref hdec)
    refine ⟨_, _, ?_, h₂, hem.only.trans hm₂, ?_, ?_, fun k hk => ?_, fun f hf => ?_,
      he₁.trans he₂⟩
    · have hk : s.kaddr (pteAddr (s.phys d i)) = .ok (frame (s.phys d i)) := kaddr_of_lt htlt htw
      rw [if_neg (not_not_intro hp)]
      simp only [hk, ok_bind, hrun, hpa]
      exact hdec
    · intro vpn w hw
      have hent : entryOf ((s₁.setWord d i 0#32).dropRef (frame (s.phys d i))).phys
          (dirsOf s₁) = entryOf s₁.phys (dirsOf s₁) := by
        rw [phys_dropRef]
        exact h₁.ledger.typed.tree.entryOf_leaveTable hd₁ htab₁ hz
      rw [hm₂.sameSlots.dirsOf] at hw ⊢
      rw [hent] at hw
      rw [refCount_of_entryOf_eq hent]
      exact hem.countable vpn w hw
    · rw [phys_dropRef]
      simp [setWord]
    · rw [phys_dropRef, ← hem.dir k]
      simp [setWord, hk]
    · have hne : f ≠ frame (s.phys d i) := ne_of_role ρ (by rw [hf, htab]; simp)
      rw [pages_dropRef_of_ne hne]
      exact hem.pages f hf
  · exact ⟨s, ρ, by rw [if_pos hp]; rfl, h, .refl s, hc, hp, fun _ _ => rfl, fun _ _ => rfl, .refl⟩

theorem Sound.clearDir (h : Settled s ρ) (hd : dirsOf s e = some d) (hc : Countable s e)
    (hQ : Q e) :
    ∃ s', (List.range (pdx utop)).foldlM (Kernel.envFreePde d) s = .ok s' ∧
      Clearing Q s ρ e d (pdx utop) s' := by
  refine foldlM_range_ok (I := Clearing Q s ρ e d)
    ⟨⟨ρ, h, .refl⟩, .refl s, hc, fun _ _ => rfl, fun k hk => absurd hk (Nat.not_lt_zero k)⟩ ?_
  intro n hn s₁ hI
  obtain ⟨ρ₁, h₁, he₁⟩ := hI.sound
  have hd₁ : dirsOf s₁ e = some d := by rw [hI.only.sameSlots.dirsOf]; exact hd
  obtain ⟨s₂, ρ₂, hrun, h₂, hm₂, hc₂, habs, hother, hpages, he₂⟩ :=
    h₁.envFreePde hd₁ hn hI.countable hQ
  refine ⟨s₂, hrun, ⟨ρ₂, h₂, he₁.trans he₂⟩, hI.only.trans hm₂, hc₂, fun f hf => ?_, fun k hk => ?_⟩
  · rw [hpages f ((he₁.reserved_iff f).mpr hf)]
    exact hI.pages f hf
  by_cases hkn : k = n
  · subst hkn
    exact habs
  · rw [hother k hkn]
    exact hI.empty k (by omega)

/-! ## The environment -/

theorem Sound.closeEnv (h : Settled s ρ) (hd : dirsOf s e = some d)
    (habs : ∀ k < pdx utop, ¬ Has (s.phys d k) pteP) (hQ : Q e) :
    (s.setEnv e { s.envs e with envPgdir := none }).pageDecref d =
        .ok ((s.setEnv e { s.envs e with envPgdir := none }).dropRef d) ∧
      Settled (s.closeEnv e d) (Function.update ρ d .free) ∧
      Effects Q (s, ρ) (s.closeEnv e d, Function.update ρ d .free) := by
  have hdir := h.ledger.typed.tree.dir.mp hd
  have heff : Effect Q (s, ρ) (s.closeEnv e d, Function.update ρ d .free) :=
    .closeEnv hd habs hQ
  have hoff : ∀ q, q ≠ d → Function.update (fun _ => 0 : ℕ → ℕ) d 1 q = 0 :=
    fun q hq => Function.update_of_ne hq _ _
  have h₁ := h.ledger.leaveDir hd habs (Function.update_self d 1 (fun _ => 0)) hoff
  have h₁' : Ledger (s.setEnv e { s.envs e with envPgdir := none })
      (Function.update (dirsOf s) e none) (Function.update ρ d .data)
      (Function.update (fun _ => 0) d 1) (fun _ => False) := h₁.congr rfl rfl rfl rfl
  have hlink : (s.setEnv e { s.envs e with envPgdir := none }).links d = none :=
    h.ledger.typed.free.link (p := d) (by rw [hdir]; simp)
  have hzero : refCount s.phys (Function.update (dirsOf s) e none) d = 0 := by
    have hold : ∀ d', dirsOf s e = some d' → ∀ k < pdx utop, ¬ Has (s.phys d' k) pteP := by
      intro d' hd'
      rw [hd] at hd'
      obtain rfl := Option.some.inj hd'
      exact habs
    have hent := entryOf_update_of_absent (o := none) hold (fun d' hd' => nomatch hd')
    rw [refCount_of_entryOf_eq hent]
    exact h.ledger.typed.tree.refCount_eq_zero (by rw [hdir]; simp)
  have hone : refCount (s.setEnv e { s.envs e with envPgdir := none }).phys
      (Function.update (dirsOf s) e none) d + Function.update (fun _ => 0 : ℕ → ℕ) d 1 d = 1 := by
    have hphys : (s.setEnv e { s.envs e with envPgdir := none }).phys = s.phys := rfl
    rw [hphys, hzero, Function.update_self]
  have h₂ := h₁'.dropRef (Function.update_self _ _ _) (by rw [hone]; decide)
    (Function.update_self d 1 (fun _ => 0)) (fun q hq => (hoff q hq).symm)
  rw [dropRole, if_pos hone, Function.update_idem, ← dirsOf_closeEnv s e d] at h₂
  exact ⟨pageDecref_of_link hlink, h.step heff (h₂.congr rfl rfl rfl rfl), .single h heff⟩

/-- **`env_free`.** -/
theorem Sound.envFree (h : Settled s ρ) (hlive : Live s e) (hc : Countable s e) (hQ : Q e) :
    ∃ s' ρ', s.envFree e = .ok s' ∧ Settled s' ρ' ∧
      (∀ f, ρ f = .reserved → s'.pages f = s.pages f) ∧ Effects Q (s, ρ) (s', ρ') := by
  obtain ⟨d, hpg, hd⟩ := h.layout.dirsOf_eq hlive
  -- the history, and the directory this CPU has loaded
  obtain ⟨s₁, hs₁, hcpu⟩ : ∃ s₁ : Kernel, s₁ = (if (s.note (.envFree s.cpunum e)).curenv = some e
      then (s.note (.envFree s.cpunum e)).lcr3 (s.note (.envFree s.cpunum e)).kernPgdir
      else s.note (.envFree s.cpunum e)) ∧ s₁.envs = s.envs ∧ s₁.envFreeList = s.envFreeList ∧
        s₁.npages = s.npages ∧ s₁.pages = s.pages ∧ s₁.pageFreeList = s.pageFreeList ∧
        s₁.phys = s.phys ∧ s₁.kernPgdir = s.kernPgdir ∧
        s₁.log.filter Event.isMemory = s.log.filter Event.isMemory := by
    refine ⟨_, rfl, ?_⟩
    split <;> exact ⟨rfl, rfl, rfl, rfl, rfl, rfl, rfl, rfl⟩
  obtain ⟨henvs, hefl, hn, hpages, hfl, hphys, hk, hlog⟩ := hcpu
  have hslots : SameSlots s s₁ :=
    ⟨fun _ => by rw [henvs], fun _ => by rw [henvs], fun _ => by rw [henvs], hefl⟩
  have hq : Settled s₁ ρ ∧ Effects Q (s, ρ) (s₁, ρ) :=
    h.quiet hn hpages hfl hphys hk hslots hlog
  obtain ⟨h₁, he₁⟩ := hq
  have hd₁ : dirsOf s₁ e = some d := by rw [hslots.dirsOf]; exact hd
  have hc₁ : Countable s₁ e := by
    intro vpn w hw
    rw [hslots.dirsOf, hphys] at hw ⊢
    exact hc vpn w hw
  obtain ⟨s₂, hrun, hcl⟩ := h₁.clearDir hd₁ hc₁ hQ
  obtain ⟨ρ₂, h₂, he₂⟩ := hcl.sound
  have hd₂ : dirsOf s₂ e = some d := by rw [hcl.only.sameSlots.dirsOf]; exact hd₁
  obtain ⟨hdec, h₃, he₃⟩ := h₂.closeEnv (Q := Q) hd₂ hcl.empty hQ
  have hdir := h₂.ledger.typed.tree.dir.mp hd₂
  have hdlt := h₂.ledger.typed.lt (p := d) (by rw [hdir]; simp)
  have hdw := lt_of_lt_of_le hdlt h₂.ledger.typed.window
  have hpa : (s₂.setEnv e { s₂.envs e with envPgdir := none }).pa2page (page2pa d) = .ok d := by
    have hpgd : pgnum (page2pa d) = d := pgnum_page2pa (by rw [kernWindow] at hdw; omega)
    rw [pa2page_of_lt (by rw [hpgd]; exact hdlt), hpgd]
  have hreserved : ∀ f, ρ f = .reserved → (s₂.closeEnv e d).pages f = s.pages f := by
    intro f hf
    have hf₂ : ρ₂ f = .reserved := (he₂.reserved_iff f).mpr hf
    have hne : f ≠ d := ne_of_role ρ₂ (by rw [hf₂, hdir]; simp)
    have hclose : (s₂.closeEnv e d).pages f =
        ((s₂.setEnv e { s₂.envs e with envPgdir := none }).dropRef d).pages f := rfl
    rw [hclose, pages_dropRef_of_ne hne, ← hpages]
    exact hcl.pages f hf
  refine ⟨_, _, ?_, h₃, hreserved, (he₁.trans he₂).trans he₃⟩
  unfold Kernel.envFree
  simp only [← hs₁]
  rw [henvs, hpg, deref_some, ok_bind, hrun, ok_bind]
  show ((s₂.setEnv e { s₂.envs e with envPgdir := none }).pa2page (page2pa d) >>= _) = _
  rw [hpa, ok_bind, hdec, ok_bind]
  rfl

end Kernel
end PmakeOs
