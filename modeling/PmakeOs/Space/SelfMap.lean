import PmakeOs.Space.Reachable
import PmakeOs.Lib.Offset

/-!
# The window at `UVPT`

Every directory has an entry for itself at `PDX(UVPT)`.  A walk that goes through it uses the
directory as a table, so it ends one level early: the page `UVPT + 4 * n` lies in is the table
of page `n`, and the one that `uvpd` points to is the directory.  `lib/entry.S` defines the two
arrays `uvpt` and `uvpd` that the user library reads.

The entry does not have `PTE_W`, so user mode can read there and nothing else.
-/

namespace PmakeOs

open Lib

namespace Kernel

variable {s : Kernel} {ρ : ℕ → Role} {h : Hardware} {d e : ℕ}

/-- `uvpd`, as `lib/entry.S` sets it: `UVPT + (UVPT >> 12) * 4`. -/
def uvpd : Word := uvpt + (uvpt >>> 12) * 4#32

/-- User mode may read at `va`, may not write there, and finds word `j` of frame `f`. -/
structure Shows (m : Phys) (d : ℕ) (va : Word) (f j : ℕ) : Prop where
  walk : mmuWalk m d (pgnum va) = some ⟨f, true, false⟩
  offset : va.toNat % pgsize = 4 * j

/-- The entry through which a directory sees itself. -/
def selfEntry (d : ℕ) : Word := page2pa d ||| pteP ||| pteU

theorem frame_selfEntry (hd : d < kernWindow) : frame (selfEntry d) = d := by
  rw [kernWindow] at hd
  rw [selfEntry, frame_or_of_lt _ (by decide), frame_or_of_lt _ (by decide),
    frame_page2pa (by omega)]

theorem has_selfEntry (d : ℕ) :
    Has (selfEntry d) pteP ∧ Has (selfEntry d) pteU ∧ ¬ Has (selfEntry d) pteW := by
  have hP : Has pteP pteP ∧ ¬ Has pteP pteW := by decide
  have hU : Has pteU pteU ∧ ¬ Has pteU pteW := by decide
  have hW : ¬ Has (page2pa d) pteW := not_has_page2pa d (by decide)
  unfold selfEntry
  simp [hP.1, hP.2, hU.1, hU.2, hW]

/-- A walk through the window takes the entry of the directory for that of a table. -/
theorem mmuWalk_window {m : Phys} {i : ℕ} (hi : i < npdentries) (hdw : d < kernWindow)
    (hself : m d (pdx uvpt) = selfEntry d) (hp : Has (m d i) pteP) (hu : Has (m d i) pteU) :
    mmuWalk m d (pdx uvpt * nptentries + i) = some ⟨frame (m d i), true, false⟩ := by
  have hdiv : (pdx uvpt * nptentries + i) / nptentries = pdx uvpt := by
    rw [npdentries] at hi
    rw [nptentries]
    omega
  have hmod : (pdx uvpt * nptentries + i) % nptentries = i := by
    rw [npdentries] at hi
    rw [nptentries]
    omega
  obtain ⟨hsp, hsu, hsw⟩ := has_selfEntry d
  unfold mmuWalk
  simp only [hdiv, hmod, hself, frame_selfEntry hdw]
  rw [if_pos ⟨hsp, hp⟩]
  simp [hsu, hsw, hu]

/-- The address of the entry of page `n`. -/
theorem uvpt_add {n : ℕ} (hn : n < 2 ^ 20) :
    pgnum (uvpt + BitVec.ofNat 32 (4 * n)) = pdx uvpt * nptentries + n / nptentries ∧
      (uvpt + BitVec.ofNat 32 (4 * n)).toNat % pgsize = 4 * (n % nptentries) := by
  have hadd : (uvpt + BitVec.ofNat 32 (4 * n)).toNat = 957 * 2 ^ 22 + 4 * n := by
    rw [toNat_add_ofNat (by rw [toNat_uvpt]; omega), toNat_uvpt]
  rw [pgnum_eq, hadd, pdx_uvpt, nptentries, pgsize]
  omega

/-- The address of the entry of table `i`. -/
theorem uvpd_add {i : ℕ} (hi : i < npdentries) :
    pgnum (uvpd + BitVec.ofNat 32 (4 * i)) = pdx uvpt * nptentries + pdx uvpt ∧
      (uvpd + BitVec.ofNat 32 (4 * i)).toNat % pgsize = 4 * i := by
  have huvpd : uvpd.toNat = 957 * 2 ^ 22 + 957 * 2 ^ 12 := by decide
  rw [npdentries] at hi
  have hadd : (uvpd + BitVec.ofNat 32 (4 * i)).toNat = 957 * 2 ^ 22 + 957 * 2 ^ 12 + 4 * i := by
    rw [toNat_add_ofNat (by rw [huvpd]; omega), huvpd]
  rw [pgnum_eq, hadd, pdx_uvpt, nptentries, pgsize]
  omega

/-- The upper half of the directory is the kernel's, but for the window, and the window shows
the tables and the directory. -/
structure Windowed (s : Kernel) (d : ℕ) : Prop where
  upper : ∀ i, pdx utop ≤ i → i < npdentries →
    s.phys d i = if i = pdx uvpt then page2pa d ||| pteP ||| pteU else s.phys s.kernPgdir i
  table : ∀ n < 2 ^ 20, Has (s.phys d (n / nptentries)) pteP →
    Shows s.phys d (uvpt + BitVec.ofNat 32 (4 * n)) (frame (s.phys d (n / nptentries)))
      (n % nptentries)
  dir : ∀ i < npdentries, Shows s.phys d (uvpd + BitVec.ofNat 32 (4 * i)) d i

/-- A present entry of a directory lets user mode through. -/
theorem Sound.user_of_present (hs : Settled s ρ) (hd : dirsOf s e = some d) {i : ℕ}
    (hi : i < npdentries) (hp : Has (s.phys d i) pteP) : Has (s.phys d i) pteU := by
  by_cases hlo : i < pdx utop
  · exact (hs.layout.wide hd hlo hp).1
  · have hup := hs.layout.upper hd (Nat.not_lt.mp hlo) hi
    by_cases hu : i = pdx uvpt
    · rw [hup, if_pos hu]
      exact (has_selfEntry d).2.1
    · rw [if_neg hu] at hup
      rw [hup] at hp ⊢
      exact (hs.layout.high (Nat.not_lt.mp hlo) hi hu hp).2.1

theorem Sound.windowed (hs : Settled s ρ) (hd : dirsOf s e = some d) : Windowed s d := by
  have hrole := hs.ledger.typed.tree.dir.mp hd
  have hdw : d < kernWindow := hs.ledger.typed.lt_kernWindow (by rw [hrole]; exact nofun)
  have hself : s.phys d (pdx uvpt) = selfEntry d := by
    have hup := hs.layout.upper hd (by decide : pdx utop ≤ pdx uvpt) (by decide)
    rwa [if_pos rfl] at hup
  refine ⟨fun i => hs.layout.upper hd, fun n hn hp => ?_, fun i hi => ?_⟩
  · have hi : n / nptentries < npdentries := by
      rw [nptentries, npdentries]
      omega
    obtain ⟨hpg, hoff⟩ := uvpt_add hn
    refine ⟨?_, hoff⟩
    rw [hpg]
    exact mmuWalk_window hi hdw hself hp (hs.user_of_present hd hi hp)
  · obtain ⟨hpg, hoff⟩ := uvpd_add hi
    obtain ⟨hsp, hsu, -⟩ := has_selfEntry d
    have hwalk := mmuWalk_window (m := s.phys) (i := pdx uvpt) (by decide) hdw hself
      (by rw [hself]; exact hsp) (by rw [hself]; exact hsu)
    rw [hself, frame_selfEntry hdw] at hwalk
    refine ⟨?_, hoff⟩
    rw [hpg]
    exact hwalk

/-- **The window of every live environment**, in every state that is reached. -/
theorem windowed_of_reached (hr : Reached h s) (hlive : Live s e)
    (hd : (s.envs e).envPgdir = some d) : Windowed s d := by
  obtain ⟨ρ, hs, -⟩ := hr.settled
  exact hs.windowed (dirsOf_of_pgdir hlive hd)

/-- The window of the first environment on a machine with 64 MB. -/
theorem windowed_of_reached_firstEnv : ∃ s e d, Reached machine64 s ∧ Live s e ∧
    (s.envs e).envPgdir = some d ∧ Windowed s d := by
  obtain ⟨s₀, hboot⟩ := machine64_boots
  obtain ⟨s, e, hexec, hmodest, -, -, hlive⟩ := firstEnv_run hboot
  have hop : Issuable s₀ (.envAlloc 0#32) := trivial
  have hr : Reached machine64 s := .op (.boot hboot) hop hmodest hexec
  obtain ⟨ρ, hs, -⟩ := hr.settled
  obtain ⟨-, d, hd⟩ := hs.layout.live hlive
  exact ⟨s, e, d, hr, hlive, hd, windowed_of_reached hr hlive hd⟩

end Kernel
end PmakeOs
