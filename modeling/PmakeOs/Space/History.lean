import PmakeOs.Space.Effects

/-!
# The history of address spaces

The log records which page `page_insert` was given for a virtual page, which page
`pgdir_walk` took for a table, and what each page was handed out for.  `Logged`
compares the tables with it: a table entry points to the page that the last
`page_insert` there was given, a directory entry to the page that the last
`pgdir_walk` there took, and a data frame was last handed out for user data.

Every effect keeps this.
-/

namespace PmakeOs

open Lib

/-! ## Reading the log -/

/-- The page an event enters as table `i` of `d`. -/
def Event.tableAt (d i : ℕ) : Event → Option ℕ
  | .table d' i' p => if d' = d ∧ i' = i then some p else none
  | _ => none

/-- The page an event maps at virtual page `vpn` of `d`. -/
def Event.insertAt (d vpn : ℕ) : Event → Option ℕ
  | .insert d' vpn' p => if d' = d ∧ vpn' = vpn then some p else none
  | _ => none

/-- The event, if it hands out page `p`. -/
def Event.handout (p : ℕ) : Event → Option Event
  | .table d i p' => if p' = p then some (.table d i p') else none
  | .directory p' => if p' = p then some (.directory p') else none
  | .userPage p' => if p' = p then some (.userPage p') else none
  | _ => none

namespace Kernel

variable {s s' : Kernel} {ρ ρ' : ℕ → Role} {Q : ℕ → Prop} {e d i p q vpn : ℕ} {w : Word}
  {log : List Event}

/-- The last page that `pgdir_walk` took for table `i` of `d`. -/
def lastTable (log : List Event) (d i : ℕ) : Option ℕ := log.findSome? (Event.tableAt d i)

/-- The last page that `page_insert` was given for virtual page `vpn` of `d`. -/
def lastInsert (log : List Event) (d vpn : ℕ) : Option ℕ := log.findSome? (Event.insertAt d vpn)

/-- What page `p` was last handed out for. -/
def lastHandout (log : List Event) (p : ℕ) : Option Event := log.findSome? (Event.handout p)

/-- Only the events about memory are read. -/
theorem findSome?_filter {β : Type} {f : Event → Option β}
    (hf : ∀ ev, ev.isMemory = false → f ev = none) (log : List Event) :
    (log.filter Event.isMemory).findSome? f = log.findSome? f := by
  induction log with
  | nil => rfl
  | cons ev log ih =>
    cases hev : ev.isMemory with
    | true => rw [List.filter_cons_of_pos hev, List.findSome?_cons, List.findSome?_cons, ih]
    | false =>
      rw [List.filter_cons_of_neg (by rw [hev]; simp), List.findSome?_cons, hf ev hev]
      exact ih

theorem lastTable_congr {log' : List Event}
    (h : log'.filter Event.isMemory = log.filter Event.isMemory) :
    lastTable log' = lastTable log := by
  funext d i
  have hf : ∀ ev : Event, ev.isMemory = false → Event.tableAt d i ev = none := by
    intro ev hev
    cases ev <;> first | rfl | cases hev
  rw [lastTable, lastTable, ← findSome?_filter hf, h, findSome?_filter hf]

theorem lastInsert_congr {log' : List Event}
    (h : log'.filter Event.isMemory = log.filter Event.isMemory) :
    lastInsert log' = lastInsert log := by
  funext d vpn
  have hf : ∀ ev : Event, ev.isMemory = false → Event.insertAt d vpn ev = none := by
    intro ev hev
    cases ev <;> first | rfl | cases hev
  rw [lastInsert, lastInsert, ← findSome?_filter hf, h, findSome?_filter hf]

theorem lastHandout_congr {log' : List Event}
    (h : log'.filter Event.isMemory = log.filter Event.isMemory) :
    lastHandout log' = lastHandout log := by
  funext p
  have hf : ∀ ev : Event, ev.isMemory = false → Event.handout p ev = none := by
    intro ev hev
    cases ev <;> first | rfl | cases hev
  rw [lastHandout, lastHandout, ← findSome?_filter hf, h, findSome?_filter hf]

/-! ## The tables and the log agree -/

structure Logged (s : Kernel) (ρ : ℕ → Role) : Prop where
  table : ∀ {e d i}, dirsOf s e = some d → i < pdx utop → Has (s.phys d i) pteP →
    lastTable s.log d i = some (frame (s.phys d i))
  entry : ∀ {e d vpn w}, dirsOf s e = some d →
    entryOf s.phys (dirsOf s) (e, vpn) = some w → lastInsert s.log d vpn = some (frame w)
  data : ∀ {q}, ρ q = .data → lastHandout s.log q = some (.userPage q)

/-- The log after `page_insert`: an event for the mapping, and one for a table if
the walk made one. -/
theorem Logged.insert (h : Logged s ρ) (ht : Typed s (dirsOf s) ρ) {pp : ℕ} {va perm : Word}
    (hd : dirsOf s e = some d) (hpp : ρ pp = .data) (hperm : perm.toNat < 2 ^ 12)
    (hm : MemoryOnly s s') (hi : Inserted s s' (dirsOf s) ρ ρ' e d va pp perm)
    (ht' : ∀ {t}, ρ' t = .table e (pdx va) → t < kernWindow) : Logged s' ρ' := by
  have hdirs : dirsOf s' = dirsOf s := hm.sameSlots.dirsOf
  have hdir := ht.tree.dir.mp hd
  have hppw := ht.lt_kernWindow (p := pp) (by rw [hpp]; simp)
  obtain ⟨t, htab, hpde, hlog⟩ := hi.pde
  have hinj : ∀ {e' d'}, dirsOf s e' = some d' → d' = d → e' = e := by
    rintro e' d' hd' rfl
    exact Role.dir.inj ((ht.tree.dir.mp hd').symm.trans hdir)
  constructor
  · intro e' d' i' hd' hi' hp'
    rw [hdirs] at hd'
    have hr := ht.tree.dir.mp hd'
    by_cases hx : d' = d ∧ i' = pdx va
    · obtain ⟨rfl, rfl⟩ := hx
      rw [hlog, hpde, frame_or_of_lt _ hperm]
      by_cases hpr : Has (s.phys d' (pdx va)) pteP
      · rw [if_pos hpr, if_pos hpr]
        exact h.table hd' hi' hpr
      · rw [if_neg hpr, if_neg hpr, frame_tableEntry (ht' htab)]
        simp [lastTable, Event.tableAt, List.findSome?_cons]
    · have hw := hi.phys d' i' (by rw [hr]; simp) (fun k => by rw [hr]; simp) hx
      rw [hw] at hp' ⊢
      rw [hlog, ← h.table hd' hi' hp']
      have hx' : ¬ (d = d' ∧ pdx va = i') := fun h0 => hx ⟨h0.1.symm, h0.2.symm⟩
      by_cases hpr : Has (s.phys d (pdx va)) pteP
      · simp [lastTable, Event.tableAt, List.findSome?_cons, hpr]
      · simp [lastTable, Event.tableAt, List.findSome?_cons, hpr, hx']
  · intro e' d' vpn w hd' hent
    rw [hdirs] at hd' hent
    rw [hi.entries] at hent
    rw [hlog]
    by_cases hx : d' = d ∧ vpn = pgnum va
    · obtain ⟨rfl, rfl⟩ := hx
      obtain rfl := hinj hd' rfl
      rw [Function.update_self] at hent
      obtain rfl := Option.some.inj hent
      rw [frame_entry hppw hperm]
      simp [lastInsert, Event.insertAt]
    · have hne : (e', vpn) ≠ (e, pgnum va) := by
        intro h0
        obtain ⟨rfl, rfl⟩ := Prod.mk.inj h0
        rw [hd] at hd'
        exact hx ⟨(Option.some.inj hd').symm, rfl⟩
      rw [Function.update_of_ne hne] at hent
      rw [← h.entry hd' hent]
      have hx' : ¬ (d = d' ∧ pgnum va = vpn) := fun h0 => hx ⟨h0.1.symm, h0.2.symm⟩
      by_cases hpr : Has (s.phys d (pdx va)) pteP
      · simp [lastInsert, Event.insertAt, hpr, hx']
      · simp [lastInsert, Event.insertAt, List.findSome?_cons, hpr, hx']
  · intro q hq
    have hold : ρ q = .data := by
      rcases hi.role q with hr | ⟨-, hr⟩ | ⟨-, hr, -⟩
      · rw [← hr]
        exact hq
      · rw [hq] at hr
        cases hr
      · rw [hq] at hr
        cases hr
    have htq : t ≠ q := by
      rintro rfl
      rw [hq] at htab
      cases htab
    rw [hlog, ← h.data hold]
    by_cases hpr : Has (s.phys d (pdx va)) pteP
    · simp [lastHandout, Event.handout, List.findSome?_cons, hpr]
    · simp [lastHandout, Event.handout, List.findSome?_cons, hpr, htq]

/-- The log is as before, and nothing new is mapped. -/
theorem Logged.shrink (h : Logged s ρ)
    (hlog : s'.log.filter Event.isMemory = s.log.filter Event.isMemory)
    (hdirs : ∀ {e d}, dirsOf s' e = some d → dirsOf s e = some d)
    (htab : ∀ {e d i}, dirsOf s' e = some d → i < pdx utop → Has (s'.phys d i) pteP →
      s'.phys d i = s.phys d i)
    (hent : ∀ {x w}, entryOf s'.phys (dirsOf s') x = some w →
      entryOf s.phys (dirsOf s) x = some w)
    (hρ : ∀ {q}, ρ' q = .data → ρ q = .data) : Logged s' ρ' := by
  constructor
  · intro e' d' i' hd' hi' hp'
    have hw := htab hd' hi' hp'
    rw [hw] at hp' ⊢
    rw [lastTable_congr hlog]
    exact h.table (hdirs hd') hi' hp'
  · intro e' d' vpn w hd' hw
    rw [lastInsert_congr hlog]
    exact h.entry (hdirs hd') (hent hw)
  · intro q hq
    rw [lastHandout_congr hlog]
    exact h.data (hρ hq)

theorem Logged.openEnv (h : Logged s ρ) (hl : Layout s ρ) (ht : Typed s (dirsOf s) ρ)
    (he : s.envFreeList = some e) (hp : ρ p = .free) (parentId : Word) :
    Logged (s.openEnv e p parentId) (Function.update ρ p (.dir e)) := by
  have hpk : p ≠ s.kernPgdir := hl.ne_kernPgdir (by rw [hp]; simp)
  have hphys := openEnv_phys s e parentId hpk
  have hdirs := dirsOf_openEnv s e p parentId
  have hlog : (s.openEnv e p parentId).log = .directory p :: s.log := rfl
  have hnl := (hl.not_live_of_head he).2
  have habs : ∀ k < pdx utop, ¬ Has ((s.openEnv e p parentId).phys p k) pteP := by
    intro k hk
    rw [hphys, if_pos rfl, if_neg (by rw [pdx_utop] at hk; rw [pdx_uvpt]; omega)]
    exact hl.low hk
  have hdp : ∀ {e' d'}, dirsOf s e' = some d' → d' ≠ p := fun {e' d'} hd' =>
    ne_of_role ρ (by rw [ht.tree.dir.mp hd', hp]; simp)
  -- the new environment has no user page, and the others are as they were
  have hent : entryOf (s.openEnv e p parentId).phys (dirsOf (s.openEnv e p parentId)) =
      entryOf s.phys (dirsOf s) := by
    rw [hdirs, entryOf_update_of_absent]
    · refine ht.tree.entryOf_retag fun f hf k => ?_
      rw [hphys, if_neg]
      rintro rfl
      rw [hp] at hf
      exact hf
    · intro d' hd'
      rw [dirsOf_of_not_live hnl] at hd'
      cases hd'
    · intro d' hd'
      obtain rfl := Option.some.inj hd'
      exact habs
  constructor
  · intro e' d' i' hd' hi' hp'
    rw [hdirs] at hd'
    by_cases hee : e' = e
    · subst hee
      rw [Function.update_self] at hd'
      obtain rfl := Option.some.inj hd'
      exact absurd hp' (habs i' hi')
    · rw [Function.update_of_ne hee] at hd'
      rw [hphys, if_neg (hdp hd')] at hp' ⊢
      rw [hlog, ← h.table hd' hi' hp']
      simp [lastTable, Event.tableAt, List.findSome?_cons]
  · intro e' d' vpn w hd' hw
    rw [hdirs] at hd'
    rw [hent] at hw
    have hd₀ : dirsOf s e' = some d' := by
      by_cases hee : e' = e
      · subst hee
        obtain ⟨-, d₀, hd₀, -⟩ := exists_of_entryOf hw
        rw [dirsOf_of_not_live hnl] at hd₀
        cases hd₀
      · rw [Function.update_of_ne hee] at hd'
        exact hd'
    rw [hlog, ← h.entry hd₀ hw]
    simp [lastInsert, Event.insertAt, List.findSome?_cons]
  · intro q hq
    have hqp : q ≠ p := by
      rintro rfl
      rw [Function.update_self] at hq
      cases hq
    rw [Function.update_of_ne hqp] at hq
    rw [hlog, ← h.data hq]
    simp [lastHandout, Event.handout, hqp.symm]

/-- **Every effect keeps the tables in agreement with the log.** -/
theorem Effect.logged (h : Effect Q (s, ρ) (s', ρ')) {pend : ℕ → Prop} (hs : Sound s ρ pend)
    (hl : Logged s ρ) (hw : ∀ {t e i}, ρ' t = .table e i → t < kernWindow) : Logged s' ρ' := by
  have ht := hs.ledger.typed
  have hupd : ∀ {x r q}, Function.update ρ x r q = .data → r ≠ .data → ρ q = .data := by
    intro x r q hq hr
    by_cases hqx : q = x
    · subst hqx
      rw [Function.update_self] at hq
      exact absurd hq hr
    · rwa [Function.update_of_ne hqx] at hq
  cases h with
  | @take _ _ p hfl hp =>
    have hent : entryOf ((s.takePage p).note (.userPage p)).phys (dirsOf s) =
        entryOf s.phys (dirsOf s) := ht.tree.entryOf_takePage hp
    constructor
    · intro e' d' i' hd' hi' hp'
      have hdp : d' ≠ p := ne_of_role ρ (by rw [ht.tree.dir.mp hd', hp]; simp)
      have hword : ((s.takePage p).note (.userPage p)).phys d' i' = s.phys d' i' := by
        simp [Kernel.note, Kernel.takePage, setPage, zeroFrame, hdp]
      rw [hword] at hp' ⊢
      rw [← hl.table hd' hi' hp']
      rfl
    · intro e' d' vpn w hd' hw'
      have hw₀ : entryOf s.phys (dirsOf s) (e', vpn) = some w := by
        rw [← hent]
        exact hw'
      rw [← hl.entry hd' hw₀]
      rfl
    · intro q hq
      have hlog : ((s.takePage p).note (.userPage p)).log = .userPage p :: s.log := rfl
      rw [hlog]
      by_cases hqp : q = p
      · simp [lastHandout, Event.handout, hqp]
      · rw [Function.update_of_ne hqp] at hq
        rw [← hl.data hq]
        simp [lastHandout, Event.handout, Ne.symm hqp]
  | give hp =>
    exact hl.shrink rfl id (fun _ _ _ => rfl) id fun hq => hupd hq (by simp)
  | insert hd hva hpp hperm hm hi hQ => exact hl.insert ht hd hpp hperm hm hi hw
  | @remove _ _ _ _ e d va hd hva hm hr hQ =>
    have hdirs := hm.sameSlots.dirsOf
    refine hl.shrink (by rw [hr.log]) (fun {_ _} h0 => by rwa [hdirs] at h0)
      (fun {e' d' i'} hd' _ _ => ?_) (fun {x w} hx => ?_) (fun {q} hq => ?_)
    · rw [hdirs] at hd'
      have hdir := ht.tree.dir.mp hd'
      exact hr.phys d' i' (fun k => by rw [hdir]; simp)
    · rw [hdirs, hr.entries] at hx
      by_cases hx' : x = (e, pgnum va)
      · rw [hx', Function.update_self] at hx
        cases hx
      · rwa [Function.update_of_ne hx'] at hx
    · rcases hr.role q with h0 | ⟨-, h0, -⟩
      · rw [← h0]
        exact hq
      · rw [hq] at h0
        cases h0
  | @dropTable _ _ e d i t hd htab hi hQ =>
    have henvs : ((s.setWord d i 0#32).dropRef t).envs = s.envs := envs_dropRef _ t
    have hdirs : dirsOf ((s.setWord d i 0#32).dropRef t) = dirsOf s := by
      funext e'
      rw [dirsOf, henvs, dirsOf]
    have hphys : ∀ f k, ¬ (f = d ∧ k = i) →
        ((s.setWord d i 0#32).dropRef t).phys f k = s.phys f k := by
      intro f k hfk
      rw [phys_dropRef]
      simp [setWord, hfk]
    refine hl.shrink (by rw [log_dropRef]; rfl) (fun {_ _} h0 => by rwa [hdirs] at h0)
      (fun {e' d' i'} hd' _ hp' => ?_) (fun {x w} hx => ?_) fun hq => hupd hq (by simp)
    · refine hphys d' i' fun hx => ?_
      rw [phys_dropRef] at hp'
      simp [setWord, hx] at hp'
    · rw [hdirs] at hx
      obtain ⟨e', vpn⟩ := x
      obtain ⟨hlt, d', hd', hpde, hw', hpr⟩ := exists_of_entryOf hx
      have hx' : ¬ (d' = d ∧ vpn / nptentries = i) := by
        intro h0
        rw [phys_dropRef] at hpde
        simp [setWord, h0] at hpde
      rw [hphys d' _ hx'] at hpde hw'
      have hrole := ht.tree.table hd' (index_lt hlt) hpde
      have hfd : frame (s.phys d' (vpn / nptentries)) ≠ d :=
        ne_of_role ρ (by rw [hrole, ht.tree.dir.mp hd]; simp)
      rw [hphys _ _ (fun h0 => hfd h0.1)] at hw'
      simp only [entryOf, hlt, if_true, hd', Option.bind_some, userPte, hpde, hw', hpr, and_self]
  | openEnv he hfl hp => exact hl.openEnv hs.layout ht he hp _
  | @closeEnv _ _ e d hd habs hQ =>
    have hdirs := dirsOf_closeEnv s e d
    have hold : ∀ {e' d'}, dirsOf (s.closeEnv e d) e' = some d' → dirsOf s e' = some d' := by
      intro e' d' hd'
      rw [hdirs] at hd'
      by_cases hee : e' = e
      · subst hee
        rw [Function.update_self] at hd'
        cases hd'
      · rwa [Function.update_of_ne hee] at hd'
    have hlog : (s.closeEnv e d).log = s.log := by
      show ((s.setEnv e { s.envs e with envPgdir := none }).dropRef d).log = _
      rw [log_dropRef]
      rfl
    refine hl.shrink (by rw [hlog]) hold (fun _ _ _ => by rw [closeEnv_phys])
      (fun {x w} hx => ?_) fun hq => hupd hq (by simp)
    have hent : entryOf (s.closeEnv e d).phys (dirsOf (s.closeEnv e d)) =
        entryOf s.phys (dirsOf s) := by
      rw [hdirs, closeEnv_phys]
      refine entryOf_update_of_absent (fun d' hd' => ?_) (fun d' hd' => by cases hd')
      rw [hd] at hd'
      obtain rfl := Option.some.inj hd'
      exact habs
    rw [hent] at hx
    exact hx
  | quiet hm hk hsl hlog =>
    refine hl.shrink hlog (fun {_ _} h0 => by rwa [hsl.dirsOf] at h0) (fun _ _ _ => by rw [hm])
      (fun {x w} hx => by rwa [hm, hsl.dirsOf] at hx) id

end Kernel
end PmakeOs
