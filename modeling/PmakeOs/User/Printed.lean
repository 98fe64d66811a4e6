import PmakeOs.User.Chain

/-!
# What the chain prints

The steps in user mode keep the invariant of `User.Chain`.  So in every run, for any number of
CPUs and in whatever order they enter the kernel, the numbers that are printed are the first
primes in order (`printed_primes`); when all processes but `umain` wait for a number, they are all
the primes among the numbers that have been sent (`printed_complete`); and there is always a
process that neither waits for a number nor for its neighbour (`exists_unblocked`).
-/

namespace PmakeOs
namespace Primes

open Kernel Lib

variable {s s' : Kernel} {m m' : Chain} {c j k r : ℕ} {pc pc' : Pc}

/-! ## Steps in user mode -/

/-- For positive `int`s, `%` is the remainder. -/
theorem srem_eq_zero_iff {w p : Word} (hw : w.toNat < 2 ^ 31) (hp : p.toNat < 2 ^ 31) :
    w.srem p = 0#32 ↔ p.toNat ∣ w.toNat := by
  have hw' : w.toInt = (w.toNat : ℤ) := BitVec.toInt_eq_toNat_of_lt (by omega)
  have hp' : p.toInt = (p.toNat : ℤ) := BitVec.toInt_eq_toNat_of_lt (by omega)
  rw [← BitVec.toInt_inj, BitVec.toInt_srem, hw', hp', Int.tmod_eq_emod_of_nonneg (by omega)]
  show _ = (0 : ℤ) ↔ _
  rw [← Int.dvd_iff_emod_eq_zero, Int.natCast_dvd_natCast]

/-- If `ipc_recv` returns, it returns one message. -/
theorem recvStep_result {v : Env} {pc pc' : RecvPc} {a : Msg} {l : List Msg}
    (h : recvStep v pc = some (pc', a :: l)) : pc' = .calling ∧ l = [] := by
  cases pc with
  | calling => cases h
  | waiting => cases h
  | gotFrom sender => cases h
  | gotPerm sender perm =>
    obtain ⟨rfl, hl⟩ := Prod.mk.inj (Option.some.inj h)
    exact ⟨rfl, (List.cons.inj hl).2.symm⟩
  | returned ret =>
    simp only [recvStep] at h
    split at h
    · obtain ⟨rfl, hl⟩ := Prod.mk.inj (Option.some.inj h)
      exact ⟨rfl, (List.cons.inj hl).2.symm⟩
    · cases h

/-- What a process does with a number it has received. -/
theorem Local.got {v : Env} {q : Option (Word × Word)} {pc : RecvPc} {a : Msg} {l l' : List Msg}
    (h : Local k v (.recv q pc) l l') (v' : Env)
    (hb : ∀ i ∈ numbers (l ++ [a]), 2 ≤ i ∧ i < 2 ^ 31) :
    Local k v' (Pc.got a.1 q) (l ++ [a]) l' ∧ (Pc.got a.1 q).next = q.map Prod.snd ∧
      (Pc.got a.1 q).label = q.map Prod.fst := by
  have hfits := h.fits
  have hflow := h.flow
  have hsnoc : numbers (l ++ [a]) = numbers l ++ [a.1.toNat] := numbers_append _ _
  rw [show Pc.pending v (.recv q pc) = [] from rfl, List.append_nil] at hflow
  cases q with
  | none =>
    obtain ⟨hk, hl⟩ := hfits
    rw [Pc.output, if_neg hk.ne', hl] at hflow
    refine ⟨⟨⟨hk, by rw [hsnoc, hl]; rfl⟩, trivial, ?_⟩, rfl, rfl⟩
    rw [Pc.output, if_neg hk.ne', hsnoc, hl]
    show numbers l' ++ [] = passed [a.1.toNat]
    rw [hflow]
    rfl
  | some q =>
    obtain ⟨p, id⟩ := q
    obtain ⟨hk, rest, hl⟩ := hfits
    rw [Pc.output, if_neg hk.ne', hl] at hflow
    rw [hsnoc, hl] at hb
    obtain ⟨hp2, hplt⟩ := hb p.toNat (by simp)
    obtain ⟨-, halt⟩ := hb a.1.toNat (by simp)
    have hout : numbers l' ++ (if p.toNat ∣ a.1.toNat then [] else [a.1.toNat]) =
        passed (numbers (l ++ [a])) := by
      rw [hsnoc, hl, List.cons_append, passed_concat, hflow]
    have hfits' : 0 < k ∧ ∃ rest, numbers (l ++ [a]) = p.toNat :: rest :=
      ⟨hk, rest ++ [a.1.toNat], by rw [hsnoc, hl]; rfl⟩
    have hdiv : ¬ (p = 0#32 ∨ a.1 = BitVec.intMin 32 ∧ p = BitVec.allOnes 32) := by
      rintro (rfl | ⟨-, rfl⟩)
      · exact absurd hp2 (by decide)
      · exact absurd hplt (by decide)
    unfold Pc.got
    dsimp only
    rw [if_neg hdiv]
    by_cases hdvd : p.toNat ∣ a.1.toNat
    · rw [if_neg (not_not.mpr ((srem_eq_zero_iff halt hplt).mpr hdvd))]
      rw [if_pos hdvd] at hout
      exact ⟨⟨hfits', trivial, by rw [Pc.output, if_neg hk.ne']; exact hout⟩, rfl, rfl⟩
    · rw [if_pos (mt (srem_eq_zero_iff halt hplt).mp hdvd)]
      rw [if_neg hdvd] at hout
      exact ⟨⟨hfits', trivial, by rw [Pc.output, if_neg hk.ne']; exact hout⟩, rfl, rfl⟩

/-- What `ipc_send` goes on with. -/
theorem Local.sent {v : Env} {p : Option Word} {id i : Word} {l l' : List Msg} {ret : Word}
    (h : Local k v (.send p id i (.returned ret)) l l') (v' : Env) (hret : ret = 0#32)
    (hpc : Pc.sent id i p = some pc') :
    Local k v' pc' l l' ∧ pc'.next = some id ∧ pc'.label = p := by
  have hfits := h.fits
  have hflow := h.flow
  rw [Pc.pending, if_pos hret, List.append_nil] at hflow
  cases p with
  | none =>
    obtain ⟨rfl, h2, hlt⟩ := hfits
    simp only [Pc.sent] at hpc
    split at hpc
    · cases hpc
    rename_i hmax
    obtain rfl := Option.some.inj hpc
    have hto : (i + 1#32).toNat = i.toNat + 1 := by
      rw [BitVec.toNat_add]
      show (i.toNat + 1) % 2 ^ 32 = _
      omega
    have hlt' : i.toNat + 1 < 2 ^ 31 := by
      by_contra h0
      refine hmax (BitVec.eq_of_toNat_eq ?_)
      rw [show (BitVec.intMax 32).toNat = 2 ^ 31 - 1 by decide]
      omega
    refine ⟨⟨⟨rfl, by omega, by omega⟩, trivial, ?_⟩, rfl, rfl⟩
    rw [hflow]
    show List.range' 2 (i.toNat - 1) ++ [(i + 1#32).toNat] = List.range' 2 ((i + 1#32).toNat - 1)
    rw [hto, show i.toNat + 1 - 1 = i.toNat - 1 + 1 by omega, List.range'_concat,
      show 2 + 1 * (i.toNat - 1) = i.toNat + 1 by omega]
  | some p =>
    obtain rfl := Option.some.inj hpc
    rw [Pc.output, if_neg hfits.1.ne'] at hflow
    refine ⟨⟨hfits, trivial, ?_⟩, rfl, rfl⟩
    rw [Pc.output, if_neg hfits.1.ne', hflow]
    exact List.append_nil _

/-- **What a step of a process keeps.**  `hmail` is its mailbox after the step. -/
theorem Local.step {v : Env} {l l' a : List Msg} {o : List Word} (h : Local k v pc l l')
    (hstep : pc.step v = some (pc', a, o))
    (hb : 0 < k → ∀ i ∈ numbers (l ++ a), 2 ≤ i ∧ i < 2 ^ 31) :
    Local k v pc' (l ++ a) l' ∧ pc'.next = pc.next ∧
      (pc'.label = pc.label ∧ o = [] ∨ ∃ p, pc = .print p ∧ pc'.label = some p ∧ o = [p]) := by
  have hfits := h.fits
  have hflow := h.flow
  cases pc with
  | fork p => cases hstep
  | stopped p => cases hstep
  | forked p id =>
    obtain ⟨rfl, ha⟩ := Prod.mk.inj (Option.some.inj hstep)
    obtain ⟨rfl, rfl⟩ := Prod.mk.inj ha
    rw [List.append_nil]
    cases p with
    | none =>
      obtain rfl : k = 0 := hfits
      refine ⟨⟨⟨rfl, by decide, by decide⟩, trivial, ?_⟩, rfl, Or.inl ⟨rfl, rfl⟩⟩
      have hnil : numbers l' ++ [] = [] := hflow
      rw [List.append_nil] at hnil
      rw [hnil]
      rfl
    | some p =>
      obtain ⟨hk, hl⟩ := hfits
      rw [Pc.output, if_neg hk.ne'] at hflow
      refine ⟨⟨⟨hk, [], hl⟩, trivial, ?_⟩, rfl, Or.inl ⟨rfl, rfl⟩⟩
      rw [Pc.output, if_neg hk.ne']
      exact hflow
  | print p =>
    obtain ⟨rfl, ha⟩ := Prod.mk.inj (Option.some.inj hstep)
    obtain ⟨rfl, rfl⟩ := Prod.mk.inj ha
    rw [List.append_nil]
    exact ⟨⟨hfits, trivial, hflow⟩, rfl, Or.inr ⟨p, rfl, rfl, rfl⟩⟩
  | recv q pc =>
    simp only [Pc.step] at hstep
    split at hstep
    · cases hstep
    · obtain ⟨rfl, ha⟩ := Prod.mk.inj (Option.some.inj hstep)
      obtain ⟨rfl, rfl⟩ := Prod.mk.inj ha
      rw [List.append_nil]
      exact ⟨⟨hfits.recv, trivial, hflow⟩, rfl, Or.inl ⟨rfl, rfl⟩⟩
    · obtain ⟨rfl, ha⟩ := Prod.mk.inj (Option.some.inj hstep)
      obtain ⟨rfl, rfl⟩ := Prod.mk.inj ha
      have hk : 0 < k := by cases q <;> exact hfits.1
      obtain ⟨hl, hn, hlab⟩ := h.got v (hb hk)
      exact ⟨hl, hn, Or.inl ⟨hlab, rfl⟩⟩
  | send p id i spc =>
    cases spc with
    | calling => cases hstep
    | yielding => cases hstep
    | waiting =>
      obtain ⟨rfl, ha⟩ := Prod.mk.inj (Option.some.inj hstep)
      obtain ⟨rfl, rfl⟩ := Prod.mk.inj ha
      rw [List.append_nil]
      exact ⟨⟨hfits.send, h.answered, hflow⟩, rfl, Or.inl ⟨rfl, rfl⟩⟩
    | returned ret =>
      simp only [Pc.step] at hstep
      split at hstep
      · rename_i hret
        obtain ⟨pc'', hpc'', heq⟩ := Option.map_eq_some_iff.mp hstep
        obtain ⟨rfl, ha⟩ := Prod.mk.inj heq
        obtain ⟨rfl, rfl⟩ := Prod.mk.inj ha
        rw [List.append_nil]
        obtain ⟨hl, hn, hlab⟩ := h.sent v hret hpc''
        exact ⟨hl, hn, Or.inl ⟨hlab, rfl⟩⟩
      · rename_i hret
        rw [if_pos (h.answered.resolve_left hret)] at hstep
        obtain ⟨rfl, ha⟩ := Prod.mk.inj (Option.some.inj hstep)
        obtain ⟨rfl, rfl⟩ := Prod.mk.inj ha
        rw [List.append_nil]
        rw [Pc.pending, if_neg hret] at hflow
        exact ⟨⟨hfits.send, trivial, hflow⟩, rfl, Or.inl ⟨rfl, rfl⟩⟩

theorem Pc.recvPc_got (w : Word) (q : Option (Word × Word)) : (Pc.got w q).recvPc = .calling := by
  unfold Pc.got
  split
  · rfl
  · split
    · rfl
    · split <;> rfl

theorem Pc.recvPc_sent {p : Option Word} {id i : Word} (h : Pc.sent id i p = some pc) :
    pc.recvPc = .calling := by
  cases p with
  | none =>
    simp only [Pc.sent] at h
    split at h
    · cases h
    · rw [← Option.some.inj h]
      rfl
  | some p =>
    rw [← Option.some.inj h]
    rfl

/-- The mailbox sees the step as one of `ipc_recv`, or not at all. -/
theorem Pc.recvPc_step {v : Env} {l : List Msg} {o : List Word}
    (h : pc.step v = some (pc', l, o)) :
    recvStep v pc.recvPc = some (pc'.recvPc, l) ∨ pc'.recvPc = pc.recvPc ∧ l = [] := by
  cases pc with
  | fork p => cases h
  | stopped p => cases h
  | print p =>
    obtain ⟨rfl, ha⟩ := Prod.mk.inj (Option.some.inj h)
    exact Or.inr ⟨rfl, (Prod.mk.inj ha).1.symm⟩
  | forked p id =>
    obtain ⟨rfl, ha⟩ := Prod.mk.inj (Option.some.inj h)
    exact Or.inr ⟨by cases p <;> rfl, (Prod.mk.inj ha).1.symm⟩
  | recv q pc =>
    simp only [Pc.step] at h
    split at h
    · cases h
    · rename_i pc₁ h₁
      obtain ⟨rfl, ha⟩ := Prod.mk.inj (Option.some.inj h)
      rw [← (Prod.mk.inj ha).1]
      exact Or.inl h₁
    · rename_i pc₁ a l₁ h₁
      obtain ⟨rfl, ha⟩ := Prod.mk.inj (Option.some.inj h)
      obtain ⟨rfl, rfl⟩ := recvStep_result h₁
      rw [← (Prod.mk.inj ha).1, Pc.recvPc_got]
      exact Or.inl h₁
  | send p id i spc =>
    cases spc with
    | calling => cases h
    | yielding => cases h
    | waiting =>
      obtain ⟨rfl, ha⟩ := Prod.mk.inj (Option.some.inj h)
      exact Or.inr ⟨rfl, (Prod.mk.inj ha).1.symm⟩
    | returned ret =>
      simp only [Pc.step] at h
      split at h
      · obtain ⟨pc₁, h₁, heq⟩ := Option.map_eq_some_iff.mp h
        obtain ⟨rfl, ha⟩ := Prod.mk.inj heq
        exact Or.inr ⟨Pc.recvPc_sent h₁, (Prod.mk.inj ha).1.symm⟩
      · split at h <;>
          · obtain ⟨rfl, ha⟩ := Prod.mk.inj (Option.some.inj h)
            exact Or.inr ⟨rfl, (Prod.mk.inj ha).1.symm⟩

/-- **A step in user mode keeps the invariant.** -/
theorem Chain.Inv.user {l : List Msg} {o : List Word} (h : m.Inv) (hk : k < m.count)
    (hc : (m.kernel.cpus c).cpuEnv = some (m.slot k)) (hu : (m.kernel.cpus c).userMode = true)
    (hstep : (m.pc k).step (m.kernel.envs (m.slot k)) = some (pc', l, o)) :
    Chain.Inv { m with
      pc := Function.update m.pc k pc'
      received := Function.update m.received k (m.received k ++ l)
      printed := m.printed ++ o } := by
  have hmail : Mailbox.Inv (m.slot k) ⟨m.kernel, pc'.recvPc, m.sent k, m.received k ++ l⟩ := by
    rcases Pc.recvPc_step hstep with hrecv | ⟨hsame, rfl⟩
    · exact (h.mail k hk).step (.user (m := m.mailbox k) hc hu hrecv)
    · rw [hsame, List.append_nil]
      exact h.mail k hk
  have hb : 0 < k → ∀ i ∈ numbers (m.received k ++ l), 2 ≤ i ∧ i < 2 ^ 31 := fun hk0 i hi =>
    h.bounds hk hk0 ((numbers_mono (received_part hmail)).subset hi)
  obtain ⟨hl, hn, hlab⟩ := (h.each k hk).step hstep hb
  have hnext : ∀ j, (Function.update m.pc k pc' j).next = (m.pc j).next := by
    intro j
    rcases eq_or_ne j k with rfl | hne
    · rw [Function.update_self, hn]
    · rw [Function.update_of_ne hne]
  refine ⟨h.pos, h.inj, fun j hj => ?_, h.live, fun j hj id hn' => ?_, fun j hj hn' => ?_,
    h.unused, fun j hj => ?_, ?_⟩
  · rw [Chain.mailbox]
    dsimp only
    rcases eq_or_ne j k with rfl | hne
    · rw [Function.update_self, Function.update_self]
      exact hmail
    · rw [Function.update_of_ne hne, Function.update_of_ne hne]
      exact h.mail j hj
  · rw [hnext] at hn'
    exact h.next j hj id hn'
  · rw [hnext] at hn'
    exact h.last j hj hn'
  · dsimp only
    rcases eq_or_ne j k with rfl | hne
    · rw [Function.update_self, Function.update_self]
      exact hl
    · rw [Function.update_of_ne hne, Function.update_of_ne hne]
      exact h.each j hj
  · dsimp only
    rw [h.printed]
    rcases hlab with ⟨hlab, rfl⟩ | ⟨p, hpc, hlab, rfl⟩
    · rw [List.append_nil]
      refine List.filterMap_congr fun j _ => ?_
      rcases eq_or_ne j k with rfl | hne
      · rw [Function.update_self, hlab]
      · rw [Function.update_of_ne hne]
    · -- the process that prints is the last one
      have hlast : k + 1 = m.count := h.last k hk (by rw [hpc]; rfl)
      rw [← hlast, List.range_succ, List.filterMap_append, List.filterMap_append]
      have hold : [k].filterMap (fun j => (m.pc j).label) = [] :=
        List.filterMap_cons_none (by rw [hpc]; rfl)
      have hnew : [k].filterMap (fun j => (Function.update m.pc k pc' j).label) = [p] :=
        List.filterMap_cons_some (by rw [Function.update_self]; exact hlab)
      rw [hold, hnew, List.append_nil]
      congr 1
      refine List.filterMap_congr fun j hj => ?_
      rw [Function.update_of_ne (Nat.ne_of_lt (List.mem_range.mp hj))]

/-! ## Runs -/

theorem Chain.Inv.step (h : m.Inv) (hs : Chain.Step m m') : m'.Inv := by
  cases hs with
  | entry hx hrun hspare hstranger hother hown =>
    exact h.entry hx hrun hspare hstranger hother hown
  | fork hk hpc hc hx hrun hspare hnew hfresh => exact h.fork hk hpc hc hx hrun hspare hnew hfresh
  | forkFails hk hpc hc hx hrun hspare hnew => exact h.forkFails hk hpc hc hx hrun hspare
  | user hk hc hu hstep => exact h.user hk hc hu hstep

theorem inv_start (hr : Ready r s) (hlive : (s.envs r).envStatus ≠ .free) :
    (Chain.start s r).Inv := by
  refine ⟨Nat.one_pos, fun i hi j hj _ => ?_, fun j _ => hr.inv, fun j _ => hlive,
    fun _ _ _ => nofun, fun j hj _ => ?_, fun _ _ => rfl, fun j hj => ?_, rfl⟩
  · rw [Nat.lt_one_iff.mp hi, Nat.lt_one_iff.mp hj]
  · rw [Nat.lt_one_iff.mp hj]
    rfl
  · rw [Nat.lt_one_iff.mp hj]
    exact ⟨rfl, trivial, rfl⟩

/-- A run of the system, from the start of `umain`. -/
def Reaches (s : Kernel) (r : ℕ) (m : Chain) : Prop :=
  Relation.ReflTransGen Chain.Step (Chain.start s r) m

theorem Reaches.inv (h : Reaches s r m) (hr : Ready r s)
    (hlive : (s.envs r).envStatus ≠ .free) : m.Inv := by
  unfold Reaches at h
  induction h with
  | refl => exact inv_start hr hlive
  | tail _ hs ih => exact ih.step hs

/-- Process `k + 1` has printed the `k`-th prime, if it has printed. -/
theorem Chain.Inv.label_eq (h : m.Inv) (hk : k + 1 < m.count) {p : Word}
    (hp : (m.pc (k + 1)).label = some p) : p.toNat = Nat.nth Nat.Prime k := by
  have hpre := (numbers_mono (received_part (h.mail (k + 1) hk))).trans (h.sent_part hk)
  have hfits := (h.each (k + 1) hk).fits
  -- the number is the first that has been received
  have hhead : ∃ rest, numbers (m.received (k + 1)) = p.toNat :: rest := by
    generalize m.pc (k + 1) = pc at hp hfits
    cases pc with
    | fork q =>
      obtain rfl : q = some p := hp
      exact ⟨[], hfits.2⟩
    | forked q id =>
      obtain rfl : q = some p := hp
      exact ⟨[], hfits.2⟩
    | stopped q =>
      obtain rfl : q = some p := hp
      exact ⟨[], hfits.2⟩
    | send q id i spc =>
      obtain rfl : q = some p := hp
      exact hfits.2
    | recv q rpc =>
      obtain ⟨⟨p', id⟩, rfl, rfl⟩ := Option.map_eq_some_iff.mp hp
      exact hfits.2
    | print q => cases hp
  obtain ⟨rest, hl⟩ := hhead
  obtain ⟨t, ht⟩ := hpre
  have hl' : numbers (m.received (k + 1)) = p.toNat :: rest := hl
  have ht' : numbers (m.received (k + 1)) ++ t = sieved m.fedCount k := ht
  rw [hl', List.cons_append] at ht'
  exact eq_nth_of_sieved ht'.symm

theorem map_filterMap_range {n : ℕ} {g : ℕ → Option Word} {q : ℕ → ℕ}
    (h : ∀ j < n, ∃ p, g j = some p ∧ p.toNat = q j) :
    ((List.range n).filterMap g).map BitVec.toNat = (List.range n).map q := by
  induction n with
  | zero => rfl
  | succ n ih =>
    obtain ⟨p, hp, hq⟩ := h n (Nat.lt_succ_self n)
    rw [List.range_succ, List.filterMap_append, List.map_append, List.map_append,
      ih fun j hj => h j (Nat.lt_succ_of_lt hj), List.filterMap_cons_some hp, List.filterMap_nil,
      List.map_cons, List.map_cons, hq, List.map_nil, List.map_nil]

/-- A process with a right neighbour has printed. -/
theorem Pc.Fits.exists_label {l : List ℕ} {id : Word} (h : pc.Fits k l) (hk : 0 < k)
    (hn : pc.next = some id) : ∃ p, pc.label = some p := by
  cases pc with
  | fork p => cases hn
  | print p => cases hn
  | stopped p => cases hn
  | forked p id =>
    cases p with
    | none => exact absurd h hk.ne'
    | some p => exact ⟨p, rfl⟩
  | send p id i spc =>
    cases p with
    | none => exact absurd h.1 hk.ne'
    | some p => exact ⟨p, rfl⟩
  | recv q rpc =>
    obtain ⟨⟨p, id⟩, rfl, -⟩ := Option.map_eq_some_iff.mp hn
    exact ⟨p, rfl⟩

theorem Pc.Fits.label_zero {l : List ℕ} (h : pc.Fits 0 l) : pc.label = none := by
  cases pc with
  | fork p | forked p id | stopped p | send p id i spc =>
    cases p with
    | none => rfl
    | some p => exact absurd h.1 (Nat.lt_irrefl 0)
  | print p => rfl
  | recv q rpc => cases q <;> exact absurd h.1 (Nat.lt_irrefl 0)

/-- All processes have printed, or all but the last. -/
theorem Chain.Inv.printed_eq (h : m.Inv) :
    ∃ n, (n + 1 = m.count ∧ (∀ j < n, (m.pc (j + 1)).label ≠ none) ∨
        n + 2 = m.count ∧ (m.pc (n + 1)).label = none) ∧
      m.printed.map BitVec.toNat = (List.range n).map (Nat.nth Nat.Prime) := by
  obtain ⟨n, hn⟩ : ∃ n, m.count = n + 1 := Nat.exists_eq_add_one_of_ne_zero h.pos.ne'
  have hzero : (m.pc 0).label = none := (h.each 0 h.pos).fits.label_zero
  have hprinted : m.printed = (List.range n).filterMap fun k => (m.pc (k + 1)).label := by
    rw [h.printed, hn, List.range_succ_eq_map,
      List.filterMap_cons_none (f := fun k => (m.pc k).label) hzero, List.filterMap_map]
    rfl
  have hsome : ∀ j, j + 2 < m.count → ∃ p, (m.pc (j + 1)).label = some p := by
    intro j hj
    cases hnext : (m.pc (j + 1)).next with
    | none => exact absurd (h.last (j + 1) (by omega) hnext) (by omega)
    | some id => exact (h.each (j + 1) (by omega)).fits.exists_label (Nat.succ_pos j) hnext
  have hboth : ∀ j, j + 1 < m.count → (∃ p, (m.pc (j + 1)).label = some p) →
      ∃ p, (m.pc (j + 1)).label = some p ∧ p.toNat = Nat.nth Nat.Prime j := by
    rintro j hj ⟨p, hp⟩
    exact ⟨p, hp, h.label_eq hj hp⟩
  cases n with
  | zero =>
    exact ⟨0, Or.inl ⟨hn.symm, fun j hj => absurd hj (Nat.not_lt_zero j)⟩, by rw [hprinted]; rfl⟩
  | succ n =>
    cases hl : (m.pc (n + 1)).label with
    | none =>
      refine ⟨n, Or.inr ⟨hn.symm, hl⟩, ?_⟩
      rw [hprinted, List.range_succ, List.filterMap_append,
        List.filterMap_cons_none (f := fun k => (m.pc (k + 1)).label) hl, List.filterMap_nil,
        List.append_nil]
      exact map_filterMap_range fun j hj => hboth j (by omega) (hsome j (by omega))
    | some p =>
      have hall : ∀ j < n + 1, ∃ p, (m.pc (j + 1)).label = some p := by
        intro j hj
        rcases Nat.lt_succ_iff_lt_or_eq.mp hj with hlt | rfl
        · exact hsome j (by omega)
        · exact ⟨p, hl⟩
      refine ⟨n + 1, Or.inl ⟨hn.symm, fun j hj h0 => ?_⟩, ?_⟩
      · obtain ⟨p', hp'⟩ := hall j hj
        rw [h0] at hp'
        cases hp'
      · rw [hprinted]
        exact map_filterMap_range fun j hj => hboth j (by omega) (hall j hj)

/-- **The numbers that are printed are the first primes, in order.** -/
theorem printed_primes (hr : Ready r s) (hlive : (s.envs r).envStatus ≠ .free)
    (h : Reaches s r m) :
    m.printed.map BitVec.toNat = (List.range m.printed.length).map (Nat.nth Nat.Prime) := by
  obtain ⟨n, -, heq⟩ := (h.inv hr hlive).printed_eq
  have hlen : m.printed.length = n := by
    have h0 := congrArg List.length heq
    rwa [List.length_map, List.length_map, List.length_range] at h0
  rw [hlen]
  exact heq

/-! ## When nothing is under way -/

/-- Process `k` waits for a number. -/
def Chain.Idle (m : Chain) (k : ℕ) : Prop :=
  (m.pc k).recvPc = .waiting ∧ (m.kernel.envs (m.slot k)).envIpcRecving = true

instance (m : Chain) (k : ℕ) : Decidable (m.Idle k) := inferInstanceAs (Decidable (_ ∧ _))

/-- Process `k` has a number for its neighbour, which does not take it yet. -/
def Chain.Busy (m : Chain) (k : ℕ) : Prop :=
  (m.pc k).pending (m.kernel.envs (m.slot k)) ≠ [] ∧
    (m.kernel.envs (m.slot (k + 1))).envIpcRecving = false

/-- An idle process is at `ipc_recv`, and has received all that has been sent to it. -/
theorem Chain.Inv.of_idle (h : m.Inv) (hk : k < m.count) (hi : m.Idle k) :
    (∃ q, m.pc k = .recv q .waiting) ∧ m.sent k = m.received k := by
  obtain ⟨hpc, -, hsent⟩ := (h.mail k hk).phase.of_recving hi.2
  refine ⟨?_, hsent⟩
  have hpc' : (m.pc k).recvPc = .waiting := hpc
  generalize m.pc k = pc at hpc'
  cases pc with
  | recv q rpc =>
    obtain rfl : rpc = .waiting := hpc'
    exact ⟨q, rfl⟩
  | _ => cases hpc'

/-- What has been sent along an idle chain. -/
theorem Chain.Inv.sent_of_idle (h : m.Inv) (hidle : ∀ k, 0 < k → k < m.count → m.Idle k)
    (hk : k + 1 < m.count) : numbers (m.sent (k + 1)) = sieved (m.sent 1).length k := by
  induction k with
  | zero =>
    have hflow := (h.each 0 h.pos).flow
    rw [Pc.output, if_pos rfl, fed_eq] at hflow
    obtain ⟨n, -, hn, -⟩ := List.range'_eq_append_iff.mp hflow.symm
    have hlen : (m.sent 1).length = n := by
      have h0 := congrArg List.length hn
      rwa [List.length_range', numbers, List.length_map] at h0
    rw [sieved, hlen]
    exact hn
  | succ k ih =>
    obtain ⟨⟨q, hpc⟩, hsent⟩ := h.of_idle (by omega) (hidle (k + 1) (Nat.succ_pos k) (by omega))
    have hflow := (h.each (k + 1) (by omega)).flow
    rw [Pc.output, if_neg (Nat.succ_ne_zero k), hpc] at hflow
    have hflow' : numbers (m.sent (k + 1 + 1)) ++ [] = _ := hflow
    rw [List.append_nil, ← hsent, ih (by omega)] at hflow'
    exact hflow'

/-- **No number is lost**: when all processes but `umain` wait, all the primes among the numbers
that `umain` has sent are printed. -/
theorem printed_complete (hr : Ready r s) (hlive : (s.envs r).envStatus ≠ .free)
    (h : Reaches s r m) (hidle : ∀ k, 0 < k → k < m.count → m.Idle k) :
    numbers (m.sent 1) = List.range' 2 (m.sent 1).length ∧
      m.printed.map BitVec.toNat = (numbers (m.sent 1)).filter fun i => i.Prime := by
  have hinv := h.inv hr hlive
  obtain ⟨n, hn, heq⟩ := hinv.printed_eq
  rcases Nat.lt_or_ge 1 m.count with hcount | hone
  · have hfirst := hinv.sent_of_idle hidle hcount
    -- the last process has received nothing
    obtain ⟨K, hK⟩ : ∃ K, m.count = K + 2 := ⟨m.count - 2, by omega⟩
    have hpcs : ∀ j, j + 1 < m.count → ∃ q, m.pc (j + 1) = .recv q .waiting ∧
        (q = none ↔ j + 2 = m.count) ∧ (q = none ↔ m.sent (j + 1) = []) := by
      intro j hj
      obtain ⟨⟨q, hpc⟩, hsent⟩ := hinv.of_idle hj (hidle (j + 1) (Nat.succ_pos j) hj)
      have hfits := (hinv.each (j + 1) hj).fits
      rw [hpc, ← hsent] at hfits
      refine ⟨q, hpc, ?_⟩
      cases q with
      | none =>
        exact ⟨iff_of_true rfl (hinv.last (j + 1) hj (by rw [hpc]; rfl)),
          iff_of_true rfl (List.map_eq_nil_iff.mp hfits.2)⟩
      | some q =>
        obtain ⟨p, id⟩ := q
        have hj2 := (hinv.next (j + 1) hj id (by rw [hpc]; rfl)).1
        obtain ⟨-, rest, hl⟩ := hfits
        refine ⟨iff_of_false nofun (by omega), iff_of_false nofun fun h0 => ?_⟩
        rw [h0] at hl
        cases hl
    have hnil : sieved (m.sent 1).length K = [] := by
      obtain ⟨q, -, h1, h2⟩ := hpcs K (by omega)
      rw [← hinv.sent_of_idle hidle (by omega), h2.mp (h1.mpr (by omega))]
      rfl
    have hne : ∀ j < K, sieved (m.sent 1).length j ≠ [] := by
      intro j hj h0
      obtain ⟨q, -, h1, h2⟩ := hpcs j (by omega)
      rw [← hinv.sent_of_idle hidle (by omega)] at h0
      have := h1.mp (h2.mpr (List.map_eq_nil_iff.mp h0))
      omega
    have hnK : n = K := by
      rcases hn with ⟨hn, hall⟩ | ⟨hn, -⟩
      · obtain ⟨q, hpc, h1, -⟩ := hpcs K (by omega)
        refine absurd ?_ (hall K (by omega))
        rw [hpc, h1.mpr (by omega)]
        rfl
      · omega
    refine ⟨hfirst, ?_⟩
    rw [hfirst, heq, hnK, ← primes_of_sieved_nil hnil hne]
    rfl
  · have hnil := hinv.unused 1 hone
    rw [hnil]
    refine ⟨rfl, ?_⟩
    obtain rfl : n = 0 := by omega
    exact heq

/-- **There is always a process that waits neither for a number nor for its neighbour.** -/
theorem exists_unblocked (hr : Ready r s) (hlive : (s.envs r).envStatus ≠ .free)
    (h : Reaches s r m) : ∃ k < m.count, ¬ m.Idle k ∧ ¬ m.Busy k := by
  have hinv := h.inv hr hlive
  by_contra hall
  push Not at hall
  have hbusy : ∀ k < m.count, m.Busy k := by
    intro k
    induction k with
    | zero =>
      intro hk
      refine hall 0 hk fun hidle => ?_
      obtain ⟨⟨q, hpc⟩, -⟩ := hinv.of_idle hk hidle
      have hfits := (hinv.each 0 hk).fits
      rw [hpc] at hfits
      cases q <;> exact absurd hfits.1 (Nat.lt_irrefl 0)
    | succ k ih =>
      intro hk
      refine hall (k + 1) hk fun hidle => ?_
      have hclosed := (ih (by omega)).2
      rw [hidle.2] at hclosed
      cases hclosed
  obtain ⟨n, hn⟩ : ∃ n, m.count = n + 1 := Nat.exists_eq_add_one_of_ne_zero hinv.pos.ne'
  have hlast := (hbusy n (by omega)).1
  cases hnext : (m.pc n).next with
  | some id => exact absurd (hinv.next n (by omega) id hnext).1 (by omega)
  | none =>
    generalize m.pc n = pc at hlast hnext
    cases pc with
    | send p id i spc => cases hnext
    | _ => exact hlast rfl

/-! ## A run -/

/-- The processes have directories and are not dying. -/
def Chain.Alive (m : Chain) (s' : Kernel) : Prop :=
  ∀ k < m.count, (s'.envs (m.slot k)).envPgdir ≠ none ∧ (s'.envs (m.slot k)).envStatus ≠ .dying

instance (m : Chain) (s' : Kernel) : Decidable (m.Alive s') :=
  inferInstanceAs (Decidable (∀ k < m.count, _ ∧ _))

/-- CPU `c`, one of two, enters the kernel, and the processes live. -/
def Chain.Enters (m : Chain) (c : ℕ) (x : Entry) : Prop :=
  c < 2 ∧ CanEnter m.kernel c x ∧ (m.kernel.entry c x).isOk = true ∧ m.Alive (m.kernel.after c x)

instance (m : Chain) (c : ℕ) (x : Entry) : Decidable (m.Enters c x) :=
  inferInstanceAs (Decidable (_ ∧ _))

/-- CPU `c` runs process `k`. -/
def Chain.Runs (m : Chain) (c k : ℕ) : Prop :=
  k < m.count ∧ (m.kernel.cpus c).cpuEnv = some (m.slot k) ∧
    ∀ j < m.count, m.slot j = m.slot k → j = k

instance (m : Chain) (c k : ℕ) : Decidable (m.Runs c k) :=
  inferInstanceAs (Decidable (_ ∧ _))

/-- The chain after an entry. -/
def Chain.entered (m : Chain) (c : ℕ) (x : Entry) (pc' : ℕ → Pc) : Chain :=
  { m with
    kernel := m.kernel.after c x
    pc := pc'
    sent := fun k => if k < m.count then m.sent k ++ sentTo (m.slot k) m.kernel c x else [] }

/-- The chain after process `k` has forked environment `v`. -/
def Chain.grown (m : Chain) (c k v : ℕ) (p : Option Word) (id : Word) : Chain :=
  { m with
    kernel := m.kernel.after c (sysEntry .exofork)
    count := m.count + 1
    slot := Function.update m.slot m.count v
    pc := Function.update (Function.update m.pc k (.forked p id)) m.count (.recv none .calling)
    received := Function.update m.received m.count [] }

/-- The chain after a step of process `k`. -/
def Chain.walked (k : ℕ) (m : Chain) : Chain :=
  match (m.pc k).step (m.kernel.envs (m.slot k)) with
  | none => m
  | some (pc', l, o) => { m with
      pc := Function.update m.pc k pc'
      received := Function.update m.received k (m.received k ++ l)
      printed := m.printed ++ o }

/-- A run on two CPUs. -/
structure OnTwo (s : Kernel) (r : ℕ) (m : Chain) : Prop where
  reaches : Reaches s r m
  off : ∀ c, 2 ≤ c → (m.kernel.cpus c).cpuEnv = none

theorem off_after {x : Entry} (h : ∀ c, 2 ≤ c → (s.cpus c).cpuEnv = none) (hc : c < 2)
    (hx : (s.entry c x).isOk = true) : ∀ c', 2 ≤ c' → ((s.after c x).cpus c').cpuEnv = none := by
  intro c' hc'
  have hne : c' ≠ c := by omega
  rw [(wrote_entry (entry_eq_ok_after hx)).stays.other c' hne, enter_cpus_of_ne s hne]
  exact h c' hc'

theorem spares_of_alive {x : Entry}
    (h : (s'.envs r).envPgdir ≠ none ∧ (s'.envs r).envStatus ≠ .dying)
    (hset : ∀ envid st, x.call ≠ some (.envSetStatus envid st)) : Spares r s c x s' :=
  ⟨h.1, h.2, fun envid st h0 => absurd h0 (hset envid st)⟩

/-- A trap of process `k`. -/
theorem OnTwo.trapped {tf : Trapframe} {t : Trap} (h : OnTwo s r m)
    (hx : m.Enters c (.trap tf t)) (hk : m.Runs c k)
    (hspare : ∀ j < m.count, Spares (m.slot j) m.kernel c (.trap tf t)
      (m.kernel.after c (.trap tf t)))
    (ht : PcTrap (m.kernel.envs (m.slot k)) (m.pc k) tf t pc') :
    OnTwo s r (m.entered c (.trap tf t) (Function.update m.pc k pc')) := by
  obtain ⟨hc, hcan, hok, -⟩ := hx
  obtain ⟨hk, hcur, hinj⟩ := hk
  refine ⟨h.reaches.tail (.entry hcan (entry_eq_ok_after hok) hspare
    (fun h0 => absurd hcur (h0 k hk)) (fun j _ hne => ?_) fun j hj hcj tf' t' hxt => ?_),
    off_after h.off hc hok⟩
  · refine Function.update_of_ne ?_ _ _
    rintro rfl
    exact hne hcur
  · obtain rfl := hinj j hj (Option.some.inj (hcj.symm.trans hcur))
    obtain ⟨rfl, rfl⟩ := Entry.trap.inj hxt
    rw [Function.update_self]
    exact ht

/-- A call of process `k`. -/
theorem OnTwo.called {y : Syscall} (h : OnTwo s r m) (pc : Pc)
    (hxk : m.Enters c (sysEntry y) ∧ m.Runs c k ∧ m.pc k = pc)
    (hset : ∀ envid st, y ≠ .envSetStatus envid st)
    (ht : ∀ v, PcTrap v pc freshTrapframe (.syscall y) pc') :
    OnTwo s r (m.entered c (sysEntry y) (Function.update m.pc k pc')) := by
  obtain ⟨hx, hk, hpc⟩ := hxk
  refine h.trapped hx hk (fun j hj => spares_of_alive (hx.2.2.2 j hj) fun envid st h0 => ?_) ?_
  · exact hset envid st (Option.some.inj h0)
  · rw [hpc]
    exact ht _

/-- Environment `r` does not wait for a message, and runs on no CPU but `c`. -/
def Unwatched (s : Kernel) (c r : ℕ) : Prop :=
  (s.envs r).envIpcRecving = false ∧ ∀ c' < 2, c' ≠ c → (s.cpus c').cpuEnv ≠ some r

instance (s : Kernel) (c r : ℕ) : Decidable (Unwatched s c r) :=
  inferInstanceAs (Decidable (_ ∧ _))

/-- Process `k`, which has forked, makes its child runnable. -/
theorem OnTwo.told {p : Option Word} (h : OnTwo s r m) (id : Word)
    (hxk : m.Enters c (sysEntry (.envSetStatus id EnvStatus.runnable.toWord)) ∧ m.Runs c k ∧
      m.pc k = .forked p id ∧ ∀ j < m.count, ((m.kernel.enter c).envid2env id true).toOption =
        some (0, some (m.slot j)) → Unwatched m.kernel c (m.slot j)) :
    OnTwo s r (m.entered c (sysEntry (.envSetStatus id EnvStatus.runnable.toWord))
      (Function.update m.pc k (.forked p id))) := by
  obtain ⟨hx, hk, hpc, hset⟩ := hxk
  refine h.trapped hx hk (fun j hj => ⟨(hx.2.2.2 j hj).1, (hx.2.2.2 j hj).2,
    fun envid st h0 _ henv => ?_⟩) ?_
  · obtain ⟨rfl, rfl⟩ := Syscall.envSetStatus.inj (Option.some.inj h0)
    obtain ⟨hrecv, hother⟩ := hset j hj (by rw [henv]; rfl)
    refine ⟨hrecv, ?_⟩
    rintro ⟨c', hne, hcur⟩
    rcases Nat.lt_or_ge c' 2 with hlt | hge
    · exact hother c' hlt hne hcur
    · rw [h.off c' hge] at hcur
      cases hcur
  · rw [hpc]
    exact .other nofun ⟨nofun, fun _ => nofun, fun _ _ _ _ _ => nofun⟩

/-- An entry of a CPU that runs none of the processes, and sends nothing. -/
theorem OnTwo.stranger {x : Entry} (h : OnTwo s r m)
    (hx : m.Enters c x ∧ ∀ k < m.count, (m.kernel.cpus c).cpuEnv ≠ some (m.slot k))
    (hset : ∀ envid st, x.call ≠ some (.envSetStatus envid st)) (hsend : sends m.kernel c x = []) :
    OnTwo s r (m.entered c x m.pc) := by
  obtain ⟨⟨hc, hcan, hok, halive⟩, hoff⟩ := hx
  exact ⟨h.reaches.tail (.entry hcan (entry_eq_ok_after hok)
    (fun k hk => spares_of_alive (halive k hk) hset) (fun _ _ _ => sentTo_of_nil hsend)
    (fun _ _ _ => rfl) fun k hk h0 => absurd h0 (hoff k hk)), off_after h.off hc hok⟩

theorem OnTwo.grown {p : Option Word} (h : OnTwo s r m) (v : ℕ) (id : Word)
    (hxk : m.Enters c (sysEntry .exofork) ∧ m.Runs c k ∧ m.pc k = .fork p ∧
      allocs m.kernel c (sysEntry .exofork) = [(v, id)])
    (hfresh : v < nenv ∧ (∀ c' < 2, (m.kernel.cpus c').cpuEnv ≠ some v) ∧
      ((m.kernel.after c (sysEntry .exofork)).envs v).envPgdir ≠ none ∧
      ((m.kernel.after c (sysEntry .exofork)).envs v).envStatus ≠ .dying) :
    OnTwo s r (m.grown c k v p id) := by
  obtain ⟨⟨hc, hcan, hok, halive⟩, ⟨hk, hcur, -⟩, hpc, hnew⟩ := hxk
  obtain ⟨hv, hoff, hfresh⟩ := hfresh
  refine ⟨h.reaches.tail (.fork hk hpc hcur hcan (entry_eq_ok_after hok)
    (fun j hj => spares_of_alive (halive j hj) fun _ _ => nofun) hnew
    ⟨hv, fun c' h0 => ?_, spares_of_alive hfresh fun _ _ => nofun⟩), off_after h.off hc hok⟩
  rcases Nat.lt_or_ge c' 2 with hlt | hge
  · exact hoff c' hlt h0
  · rw [h.off c' hge] at h0
    cases h0

/-- `n` steps of process `k` in user mode. -/
theorem OnTwo.walked (h : OnTwo s r m)
    (hk : m.Runs c k ∧ (m.kernel.cpus c).userMode = true) (n : ℕ) :
    OnTwo s r ((Chain.walked k)^[n] m) := by
  induction n generalizing m with
  | zero => exact h
  | succ n ih =>
    rw [Function.iterate_succ_apply]
    unfold Chain.walked
    split
    · exact ih h hk
    · rename_i hstep
      exact ih ⟨h.reaches.tail (.user hk.1.1 hk.1.2.1 hk.2 hstep), h.off⟩ hk

theorem onTwo_sharing : OnTwo sharing 1 (Chain.start sharing 1) := by
  refine ⟨.refl, fun c hc => ?_⟩
  show (if c < 2 then some c else none) = none
  exact if_neg (by omega)

/-- `umain`, on CPU 1, forks, makes its child runnable, and the child is started on CPU 0. -/
def umainForked : Chain :=
  let m := (Chain.start sharing 1).grown 1 0 2 none 0x1002#32
  let m := m.entered 1 (sysEntry (.envSetStatus 0x1002#32 EnvStatus.runnable.toWord))
    (Function.update m.pc 0 (.forked none 0x1002#32))
  let m := (Chain.walked 0)^[1] m
  m.entered 0 (sysEntry .yield) m.pc

theorem onTwo_umainForked : OnTwo sharing 1 umainForked := by
  have h := onTwo_sharing.grown (c := 1) (k := 0) (p := none) 2 0x1002#32
    (by decide +kernel) (by decide +kernel)
  have h := h.told (c := 1) (k := 0) (p := none) 0x1002#32 (by decide +kernel)
  have h := h.walked (c := 1) (k := 0) (by decide +kernel) 1
  exact h.stranger (by decide +kernel) (fun _ _ => nofun) rfl

/-- The child waits, `umain` sends it a number, and the child gets it and prints it. -/
def firstPrinted : Chain :=
  let m := umainForked.entered 0 (sysEntry (.ipcRecv (recvArg 0#32)))
    (Function.update umainForked.pc 1 (.recv none .waiting))
  let m := m.entered 1 (sysEntry (.ipcTrySend 0x1002#32 2#32 (recvArg 0#32) 0#32 none))
    (Function.update m.pc 0 (.send none 0x1002#32 2#32 .waiting))
  (Chain.walked 1)^[5] (m.entered 0 (sysEntry .yield) m.pc)

theorem onTwo_firstPrinted : OnTwo sharing 1 firstPrinted := by
  have h := onTwo_umainForked.called (c := 0) (k := 1) (y := .ipcRecv (recvArg 0#32))
    (.recv none .calling) (by decide +kernel) (fun _ _ h0 => by cases h0) fun _ => .recv
  have h := h.called (c := 1) (k := 0)
    (y := .ipcTrySend 0x1002#32 2#32 (recvArg 0#32) 0#32 none)
    (.send none 0x1002#32 2#32 .calling) (by decide +kernel) (fun _ _ h0 => by cases h0)
    fun _ => .send
  have h := h.stranger (c := 0) (x := sysEntry .yield) (by decide +kernel) (fun _ _ => nofun) rfl
  exact h.walked (c := 0) (by decide +kernel) 5

/-- It forks as well, and then it and its child wait. -/
def bothWait : Chain :=
  let m := firstPrinted.grown 0 1 3 (some 2#32) 0x1003#32
  let m := m.entered 0 (sysEntry (.envSetStatus 0x1003#32 EnvStatus.runnable.toWord))
    (Function.update m.pc 1 (.forked (some 2#32) 0x1003#32))
  let m := (Chain.walked 1)^[1] m
  let m := m.entered 0 (sysEntry (.ipcRecv (recvArg 0#32)))
    (Function.update m.pc 1 (.recv (some (2#32, 0x1003#32)) .waiting))
  m.entered 0 (sysEntry (.ipcRecv (recvArg 0#32))) (Function.update m.pc 2 (.recv none .waiting))

theorem onTwo_bothWait : OnTwo sharing 1 bothWait := by
  have h := onTwo_firstPrinted.grown (c := 0) (k := 1) (p := some 2#32) 3 0x1003#32
    (by decide +kernel) (by decide +kernel)
  have h := h.told (c := 0) (k := 1) (p := some 2#32) 0x1003#32 (by decide +kernel)
  have h := h.walked (c := 0) (k := 1) (by decide +kernel) 1
  have h := h.called (c := 0) (k := 1) (y := .ipcRecv (recvArg 0#32))
    (.recv (some (2#32, 0x1003#32)) .calling) (by decide +kernel) (fun _ _ h0 => by cases h0)
    fun _ => .recv
  exact h.called (c := 0) (k := 2) (y := .ipcRecv (recvArg 0#32)) (.recv none .calling)
    (by decide +kernel) (fun _ _ h0 => by cases h0) fun _ => .recv

/-- What the chain and the table are there. -/
theorem bothWait_facts : (sharing.envs 1).envStatus ≠ .free ∧ bothWait.printed = [2#32] ∧
    numbers (bothWait.sent 1) = [2] ∧ bothWait.count = 3 ∧
    ∀ k < bothWait.count, 0 < k → bothWait.Idle k := by
  decide +kernel

theorem printed_primes_bothWait : Ready 1 sharing ∧ Reaches sharing 1 bothWait ∧
    bothWait.printed = [2#32] ∧
      bothWait.printed.map BitVec.toNat =
        (List.range bothWait.printed.length).map (Nat.nth Nat.Prime) :=
  ⟨sharing_ready, onTwo_bothWait.reaches, bothWait_facts.2.1,
    printed_primes sharing_ready bothWait_facts.1 onTwo_bothWait.reaches⟩

theorem printed_complete_bothWait : numbers (bothWait.sent 1) = [2] ∧
    bothWait.printed.map BitVec.toNat = (numbers (bothWait.sent 1)).filter fun i => i.Prime := by
  obtain ⟨hlive, -, hsent, -, hidle⟩ := bothWait_facts
  exact ⟨hsent, (printed_complete sharing_ready hlive onTwo_bothWait.reaches
    fun k h0 hk => hidle k hk h0).2⟩

theorem exists_unblocked_bothWait : bothWait.count = 3 ∧
    ∃ k < bothWait.count, ¬ bothWait.Idle k ∧ ¬ bothWait.Busy k :=
  ⟨bothWait_facts.2.2.2.1,
    exists_unblocked sharing_ready bothWait_facts.1 onTwo_bothWait.reaches⟩

end Primes
end PmakeOs
