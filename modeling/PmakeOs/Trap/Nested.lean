import PmakeOs.Trap.PageFault
import PmakeOs.Space.Reachable
import PmakeOs.Sched.Exclusion

/-!
# Nested page faults

An environment whose upcall faults again is given a second frame below the first, on the
same page, and so on to any depth.  `Nesting c d s fs` says that the kernel is in state `s`
with the frames `fs` of environment `c` outstanding, the innermost first.

A fault taken at `tf_esp` on the exception stack is *clear* if `tf_esp` is not the first
address of the page, and if the part of the new frame that falls below the page, when there
is one, does not fall on the same physical page.  The comparison that `page_fault_handler`
makes with the lower end of the page is strict, so that at the first address it starts again
at the top of the page and writes over what is there; elsewhere every outstanding frame stays
as it was (`Nesting.holds`).
-/

namespace PmakeOs

open Lib

namespace Kernel

variable {s s' : Kernel} {ρ : ℕ → Role} {c d : ℕ} {va faultVa : Word}

/-- The first address of the user exception stack. -/
def uxstackbase : Word := uxstacktop - BitVec.ofNat 32 pgsize

/-- The trap-time stack pointer is on the exception stack. -/
def OnStack (esp : Word) : Prop := uxstackbase ≤ esp ∧ esp < uxstacktop

instance (esp : Word) : Decidable (OnStack esp) := inferInstanceAs (Decidable (_ ∧ _))

/-- A frame on the exception stack: its address and its words. -/
abbrev StackFrame := Word × List Word

/-- The frame is in memory, as it was stored. -/
def Holds (m : Phys) (d : ℕ) (f : StackFrame) : Prop :=
  ∀ k < 4 * f.2.length, byteAt m d (f.1 + BitVec.ofNat 32 k) = some (bytesOf f.2 k)

/-- The fault leaves room: the stack pointer is not at the first address of the page, and what
goes below the page does not come back to it through a second mapping. -/
def Clear (s : Kernel) (d : ℕ) (esp : Word) : Prop :=
  OnStack esp → esp ≠ uxstackbase ∧
    (esp.toNat < uxstackbase.toNat + 56 → ∀ t t', mmuWalk s.phys d (pgnum uxstackbase) = some t →
      mmuWalk s.phys d (pgnum uxstackbase - 1) = some t' → t'.ppn ≠ t.ppn)

/-- The fault is taken below the innermost frame, on the exception stack. -/
def Below (esp : Word) (fs : List StackFrame) : Prop :=
  ∀ f ∈ fs.head?, OnStack esp ∧ esp ≤ f.1

/-- **The frames that are outstanding.** -/
inductive Nesting (c d : ℕ) : Kernel → List StackFrame → Prop
  | start {s : Kernel} {ρ : ℕ → Role} (hs : Spaces s ρ) : Nesting c d s []
  /-- Anything else that runs, and leaves the frames alone. -/
  | other {s s' : Kernel} {ρ : ℕ → Role} {fs : List StackFrame} (hn : Nesting c d s fs)
      (hs : Spaces s' ρ) (hsame : ∀ f ∈ fs, ∀ k < 4 * f.2.length,
        byteAt s'.phys d (f.1 + BitVec.ofNat 32 k) = byteAt s.phys d (f.1 + BitVec.ofNat 32 k)) :
      Nesting c d s' fs
  /-- A fault that does not end the environment. -/
  | fault {s s' : Kernel} {fs : List StackFrame} {faultVa : Word} (hn : Nesting c d s fs)
      (hf : Faulting s c d) (hbelow : Below (s.envs c).envTf.tfEsp fs)
      (hclear : Clear s d (s.envs c).envTf.tfEsp) (hadm : Admitted s c)
      (h : s.pageFaultHandler faultVa = .ok (.left, s')) :
      Nesting c d s' ((utrapframeAddr (s.envs c).envTf.tfEsp,
        utrapframe faultVa (s.envs c).envTf) :: fs)
  /-- The upcall of the innermost frame has returned. -/
  | back {s : Kernel} {f : StackFrame} {fs : List StackFrame} (hn : Nesting c d s (f :: fs)) :
      Nesting c d s fs

/-! ## One fault -/

theorem toNat_uxstacktop : uxstacktop.toNat = 955 * 2 ^ 22 := toNat_utop

theorem toNat_uxstackbase : uxstackbase.toNat = 955 * 2 ^ 22 - 4096 := by decide

/-- The new frame is in memory. -/
theorem Branched.holds (hs : Spaces s ρ) (hd : dirsOf s c = some d)
    (h : Branched s s' c d faultVa) :
    Holds s'.phys d (utrapframeAddr (s.envs c).envTf.tfEsp, utrapframe faultVa (s.envs c).envTf) := by
  intro k hk
  dsimp only
  rw [h.phys]
  exact hs.byteAt_putBytes hd (fun j hj => h.writable j (by omega)) (by decide) hk

/-- A byte whose place is not that of a byte of the new frame. -/
theorem Branched.byteAt_eq (hs : Spaces s ρ) (hd : dirsOf s c = some d)
    (h : Branched s s' c d faultVa) (hv : pgnum va < upn)
    (hne : ∀ k < 52, place s.phys d (utrapframeAddr (s.envs c).envTf.tfEsp + BitVec.ofNat 32 k) ≠
      place s.phys d va) : byteAt s'.phys d va = byteAt s.phys d va := by
  rw [h.phys]
  exact hs.byteAt_putBytes_of_ne hd (fun j hj => h.writable j (by omega)) hv hne

/-- The frame of a fault on the exception stack, above its first address. -/
theorem utrapframeAddr_of_onStack {esp : Word} (h : OnStack esp) (hne : esp ≠ uxstackbase) :
    utrapframeAddr esp = esp - 56#32 := by
  have hlt : uxstackbase < esp := by
    have hle := h.1
    rw [BitVec.le_def] at hle
    rw [BitVec.lt_def]
    have hne' : uxstackbase.toNat ≠ esp.toNat := fun h0 => hne (BitVec.eq_of_toNat_eq h0.symm)
    omega
  exact congrArg (· - 56#32) (if_pos ⟨hlt, h.2⟩)

/-- The bytes of a frame below a clear fault have other places than the bytes above it. -/
theorem Clear.place_ne {esp : Word} (hclear : Clear s d esp) (hon : OnStack esp) (hlo : esp ≤ va)
    (hhi : va < uxstacktop) {k : ℕ} (hk : k < 52)
    (hw : UserWritable s.phys d (utrapframeAddr esp + BitVec.ofNat 32 k)) :
    place s.phys d (utrapframeAddr esp + BitVec.ofNat 32 k) ≠ place s.phys d va := by
  intro hsame
  obtain ⟨-, t', ht', -⟩ := hw
  have hplace := place_of_walk ht'
  have hx := hsame.symm.trans hplace
  obtain ⟨hne, halias⟩ := hclear hon
  rw [utrapframeAddr_of_onStack hon hne] at ht' hx
  obtain ⟨h1, h2⟩ := hon
  have hne' : esp.toNat ≠ uxstackbase.toNat := fun h0 => hne (BitVec.eq_of_toNat_eq h0)
  rw [BitVec.le_def] at h1 hlo
  rw [BitVec.lt_def] at h2 hhi
  rw [toNat_uxstackbase] at h1 hne' halias
  rw [toNat_uxstacktop] at h2 hhi
  have hk' : (esp - 56#32 + BitVec.ofNat 32 k).toNat = esp.toNat - 56 + k := by
    refine toNat_frame_add ?_ (by omega)
    rw [toNat_uxstacktop, pgsize]
    omega
  have hoff := offset_of_place hx
  obtain ⟨t, ht, heq⟩ := Option.map_eq_some_iff.mp hx
  dsimp only at hoff
  rw [hk', pgsize] at hoff
  have hpage : pgnum va = pgnum uxstackbase := by
    rw [pgnum_eq, pgnum_eq, toNat_uxstackbase]
    omega
  rcases Nat.lt_or_ge (esp.toNat - 56 + k) (955 * 2 ^ 22 - 4096) with hlow | hhigh
  · -- the byte is below the page: it would need the frame of the page above
    have hpage' : pgnum (esp - 56#32 + BitVec.ofNat 32 k) = pgnum uxstackbase - 1 := by
      rw [pgnum_eq, hk', pgnum_eq, toNat_uxstackbase]
      omega
    rw [hpage] at ht
    rw [hpage'] at ht'
    exact halias (by omega) t t' ht ht' (Prod.mk.inj heq).1.symm
  · -- the byte is on the page, at a lower offset
    omega

/-- **No byte above a clear fault changes.** -/
theorem Branched.byteAt_above (hs : Spaces s ρ) (hd : dirsOf s c = some d)
    (h : Branched s s' c d faultVa) (hon : OnStack (s.envs c).envTf.tfEsp)
    (hclear : Clear s d (s.envs c).envTf.tfEsp) (hlo : (s.envs c).envTf.tfEsp ≤ va)
    (hhi : va < uxstacktop) : byteAt s'.phys d va = byteAt s.phys d va :=
  h.byteAt_eq hs hd (pgnum_lt_upn hhi) fun k hk =>
    hclear.place_ne hon hlo hhi hk (h.writable k (by omega))

/-! ## Any depth -/

/-- The frames lie one above the other, up to the top of the exception stack. -/
structure Ascending (fs : List StackFrame) : Prop where
  top : ∀ f ∈ fs, f.1.toNat + 4 * f.2.length ≤ uxstacktop.toNat
  le : fs.Pairwise fun f g => f.1 ≤ g.1

theorem Ascending.head_le {f g : StackFrame} {fs : List StackFrame} (h : Ascending (g :: fs))
    (hf : f ∈ g :: fs) : g.1 ≤ f.1 := by
  rcases List.mem_cons.mp hf with rfl | hf
  · exact BitVec.le_refl _
  · exact List.rel_of_pairwise_cons h.le hf

/-- The bytes of the outstanding frames are on the exception stack above the fault. -/
theorem Ascending.above {fs : List StackFrame} {esp : Word} (h : Ascending fs) (hbelow : Below esp fs)
    {f : StackFrame} (hf : f ∈ fs) {k : ℕ} (hk : k < 4 * f.2.length) :
    OnStack esp ∧ esp ≤ f.1 + BitVec.ofNat 32 k ∧ f.1 + BitVec.ofNat 32 k < uxstacktop := by
  cases fs with
  | nil => cases hf
  | cons g fs =>
    obtain ⟨hon, hle⟩ := hbelow g rfl
    have hg := h.head_le hf
    have htop := h.top f hf
    rw [toNat_uxstacktop] at htop
    have hk' : (f.1 + BitVec.ofNat 32 k).toNat = f.1.toNat + k := by
      rw [BitVec.toNat_add, BitVec.toNat_ofNat]
      omega
    rw [BitVec.le_def] at hle hg
    refine ⟨hon, ?_, ?_⟩
    · rw [BitVec.le_def, hk']
      omega
    · rw [BitVec.lt_def, hk', toNat_uxstacktop]
      omega

theorem Ascending.cons {fs : List StackFrame} {esp : Word} {ws : List Word} (h : Ascending fs)
    (hbelow : Below esp fs) (hne : OnStack esp → esp ≠ uxstackbase) (hlen : ws.length = 13) :
    Ascending ((utrapframeAddr esp, ws) :: fs) := by
  obtain ⟨top, heq, -, hlo, hhi⟩ := utrapframeAddr_eq esp
  have haddr := toNat_utrapframeAddr heq hlo
  constructor
  · intro f hf
    rcases List.mem_cons.mp hf with rfl | hf
    · dsimp only
      rw [haddr, hlen]
      rw [toNat_uxstacktop, pgsize] at hlo
      omega
    · exact h.top f hf
  · refine List.pairwise_cons.mpr ⟨fun f hf => ?_, h.le⟩
    cases fs with
    | nil => cases hf
    | cons g fs =>
      obtain ⟨hon, hle⟩ := hbelow g rfl
      have hg := h.head_le hf
      have h1 := hon.1
      rw [BitVec.le_def] at hle hg h1 ⊢
      have hesp := utrapframeAddr_of_onStack hon (hne hon)
      have hsub : (esp - 56#32).toNat = esp.toNat - 56 := by
        have := esp.isLt
        rw [toNat_uxstackbase] at h1
        rw [BitVec.toNat_sub, BitVec.toNat_ofNat]
        omega
      dsimp only
      rw [hesp, hsub]
      omega

/-- **Every outstanding frame is in memory, as it was stored.** -/
theorem Nesting.holds {fs : List StackFrame} (hn : Nesting c d s fs) :
    (∃ ρ, Spaces s ρ) ∧ Ascending fs ∧ ∀ f ∈ fs, Holds s.phys d f := by
  induction hn with
  | start hs => exact ⟨⟨_, hs⟩, ⟨nofun, List.Pairwise.nil⟩, nofun⟩
  | other _ hs hsame ih =>
    refine ⟨⟨_, hs⟩, ih.2.1, fun f hf k hk => ?_⟩
    rw [hsame f hf k hk]
    exact ih.2.2 f hf k hk
  | @fault s s' fs faultVa _ hf hbelow hclear hadm h ih =>
    obtain ⟨⟨ρ, hs⟩, hst, hhold⟩ := ih
    obtain ⟨s₁, hrun, hbr⟩ := hadm.branched hs hf faultVa
    obtain ⟨-, rfl⟩ := Prod.mk.inj (Except.ok.inj (hrun.symm.trans h))
    refine ⟨⟨ρ, hbr.spaces hs hf.dir⟩,
      hst.cons hbelow (fun hon => (hclear hon).1) (length_utrapframe _ _), fun f hmem => ?_⟩
    rcases List.mem_cons.mp hmem with rfl | hmem
    · exact hbr.holds hs hf.dir
    · intro k hk
      obtain ⟨hon, hlo, hhi⟩ := hst.above hbelow hmem hk
      rw [hbr.byteAt_above hs hf.dir hon hclear hlo hhi]
      exact hhold f hmem k hk
  | back _ ih =>
    obtain ⟨hs, hst, hhold⟩ := ih
    exact ⟨hs, ⟨fun f hf => hst.top f (List.mem_cons_of_mem _ hf), hst.le.of_cons⟩,
      fun f hf => hhold f (List.mem_cons_of_mem _ hf)⟩

/-- **A clear fault on the exception stack, at any depth.**  The environment is destroyed; or
the new frame is stored below `tf_esp - 4`, the outstanding frames and all that is above
`tf_esp` stay, and every byte that changes is in a page that the environment may write. -/
theorem nested_holds {fs : List StackFrame} (hn : Nesting c d s fs) (hf : Faulting s c d)
    (hon : OnStack (s.envs c).envTf.tfEsp) (hbelow : Below (s.envs c).envTf.tfEsp fs)
    (hclear : Clear s d (s.envs c).envTf.tfEsp) (faultVa : Word) :
    Destroyed s c faultVa ∨
    ∃ s', s.pageFaultHandler faultVa = .ok (.left, s') ∧
      Nesting c d s' (((s.envs c).envTf.tfEsp - 56#32, utrapframe faultVa (s.envs c).envTf) :: fs) ∧
      Holds s'.phys d ((s.envs c).envTf.tfEsp - 56#32, utrapframe faultVa (s.envs c).envTf) ∧
      ((s.envs c).envTf.tfEsp - 56#32).toNat + 4 * (utrapframe faultVa (s.envs c).envTf).length =
        (s.envs c).envTf.tfEsp.toNat - 4 ∧
      (∀ f ∈ fs, Holds s'.phys d f) ∧
      (∀ va, (s.envs c).envTf.tfEsp ≤ va → va < uxstacktop →
        byteAt s'.phys d va = byteAt s.phys d va) ∧
      ∀ f o, physByte s'.phys f o ≠ physByte s.phys f o →
        ∃ va, UserWritable s.phys d va ∧ place s.phys d va = some (f, o) := by
  obtain ⟨⟨ρ, hs⟩, -, -⟩ := hn.holds
  rcases destroyed_or_admitted hs hf faultVa with hdes | hadm
  · exact Or.inl hdes
  · obtain ⟨s', hrun, hbr⟩ := hadm.branched hs hf faultVa
    have hn' := Nesting.fault hn hf hbelow hclear hadm hrun
    obtain ⟨-, -, hhold⟩ := hn'.holds
    rw [utrapframeAddr_of_onStack hon (hclear hon).1] at hn' hhold
    refine Or.inr ⟨s', hrun, hn', hhold _ List.mem_cons_self, ?_,
      fun f hf => hhold f (List.mem_cons_of_mem _ hf),
      fun va hlo hhi => hbr.byteAt_above hs hf.dir hon hclear hlo hhi, fun f o hne => ?_⟩
    · have h1 := hon.1
      have hlt := (s.envs c).envTf.tfEsp.isLt
      rw [BitVec.le_def, toNat_uxstackbase] at h1
      rw [length_utrapframe, BitVec.toNat_sub, BitVec.toNat_ofNat]
      omega
    · rw [hbr.phys] at hne
      obtain ⟨k, hk, hplace⟩ := place_of_putBytes_ne hne
      exact ⟨_, hbr.writable k (by omega), hplace⟩

/-- The states that are reached are states from which this starts. -/
theorem Reached.spaces {h : Hardware} (hr : Reached h s) : ∃ ρ, Spaces s ρ := by
  obtain ⟨ρ, hset, -⟩ := hr.settled
  exact ⟨ρ, hset.ledger.typed, fun _ _ _ hd hi hp => hset.layout.wide hd hi hp⟩

/-! ## An environment with an exception stack -/

/-- One environment, which has faulted with `tf`.  Its exception stack is frame 4, and `x` is
the entry of the page below `USTACKTOP`. -/
def faulted (x : Word) (tf : Trapframe) : Kernel :=
  { oneEnv with
    pages := fun _ => ⟨none, 1#16⟩
    pageFreeList := none
    phys := fun f i =>
      if f = 2 ∧ i = 954 then 0x3007#32
      else if f = 3 ∧ i = 1023 then 0x4007#32
      else if f = 3 ∧ i = 1021 then x
      else 0#32
    envs := Function.update oneEnv.envs 0 { oneEnv.envs 0 with
      envStatus := .running
      envTf := tf
      envPgfaultUpcall := 0x800020#32 }
    cpus := fun _ => ⟨.started, some 0, false, 2, []⟩ }

def faultedRoles (f : ℕ) : Role :=
  if f = 2 then .dir 0
  else if f = 3 then .table 0 954
  else if f = 4 ∨ f = 5 then .data
  else .reserved

/-- The entry `x` is empty or maps one of the two data frames. -/
def StackEntry (x : Word) : Prop := x = 0#32 ∨ Has x pteP ∧ (frame x = 4 ∨ frame x = 5)

theorem dirsOf_faulted (x : Word) (tf : Trapframe) (e : ℕ) :
    dirsOf (faulted x tf) e = if e = 0 then some 2 else none := by
  rcases eq_or_ne e 0 with rfl | he
  · rfl
  · have hother : (faulted x tf).envs e = oneEnv.envs e := Function.update_of_ne he _ _
    rw [if_neg he, dirsOf, hother]
    exact if_pos (if_neg he)

theorem faulted_pde {x : Word} {tf : Trapframe} {i : ℕ} (hp : Has ((faulted x tf).phys 2 i) pteP) : i = 954 := by
  by_contra hi
  refine not_has_zero pteP ?_
  have h0 : (faulted x tf).phys 2 i = 0#32 := by
    show (if _ then _ else if _ then _ else if _ then _ else _) = _
    rw [if_neg fun h => hi h.2, if_neg (by omega), if_neg (by omega)]
  rwa [h0] at hp

theorem faulted_dir (x : Word) (tf : Trapframe) : (faulted x tf).phys 2 954 = 0x3007#32 := rfl

theorem faulted_table (x : Word) (tf : Trapframe) (j : ℕ) : (faulted x tf).phys 3 j =
    if j = 1023 then 0x4007#32 else if j = 1021 then x else 0#32 := by
  simp [faulted]

/-- The pages of the highest table. -/
theorem faulted_walk (x : Word) (tf : Trapframe) {j : ℕ} (hj : j < nptentries) :
    mmuWalk (faulted x tf).phys 2 (954 * nptentries + j) =
      let w := (faulted x tf).phys 3 j
      if Has w pteP then some ⟨frame w, decide (Has w pteU), decide (Has w pteW)⟩ else none := by
  have hflags : Has 0x3007#32 pteP ∧ Has 0x3007#32 pteU ∧ Has 0x3007#32 pteW := by decide
  have hframe : frame 0x3007#32 = 3 := by decide
  unfold mmuWalk
  simp only [pageNo_div hj, pageNo_mod hj, faulted_dir, hframe, hflags, true_and]

theorem faulted_spaces {x : Word} (hx : StackEntry x) (tf : Trapframe) :
    Spaces (faulted x tf) faultedRoles := by
  have hdir : ∀ {e d}, dirsOf (faulted x tf) e = some d → e = 0 ∧ d = 2 := by
    intro e d hd
    rw [dirsOf_faulted] at hd
    split_ifs at hd with he
    exact ⟨he, (Option.some.inj hd).symm⟩
  have hpages : (faulted x tf).npages = 16 := rfl
  refine ⟨⟨by rw [hpages]; decide, fun {p} hp => ?_,
    ⟨⟨[], .nil, fun p => ?_⟩, fun _ => rfl⟩, ?_⟩, fun e d i hd _ hp => ?_⟩
  · rw [hpages]
    by_contra h0
    refine hp ?_
    unfold faultedRoles
    rw [if_neg (by omega), if_neg (by omega), if_neg (by omega)]
  · unfold faultedRoles
    split_ifs <;> simp
  · refine ⟨fun {e d} hd => ?_, fun {e d} => ⟨fun hd => ?_, fun hd => ?_⟩, fun {e d i} hd _ hp => ?_,
      fun {e i t} ht => ?_, fun {e i t j} ht _ => ?_⟩
    · rw [(hdir hd).1]
      decide
    · obtain ⟨rfl, rfl⟩ := hdir hd
      rfl
    · unfold faultedRoles at hd
      split_ifs at hd with h2
      rw [h2, dirsOf_faulted, if_pos (Role.dir.inj hd).symm]
    · obtain ⟨rfl, rfl⟩ := hdir hd
      obtain rfl := faulted_pde hp
      rw [faulted_dir]
      decide
    · unfold faultedRoles at ht
      split_ifs at ht with h2 h3
      obtain ⟨rfl, rfl⟩ := Role.table.inj ht
      refine ⟨2, rfl, by decide, ?_, ?_⟩
      · rw [faulted_dir]
        decide
      · rw [faulted_dir, h3]
        decide
    · unfold faultedRoles at ht
      split_ifs at ht with h2 h3
      rw [h3, faulted_table]
      split_ifs with hj hj'
      · exact Or.inr ⟨by decide, by decide⟩
      · rcases hx with hx | ⟨hp, hfr⟩
        · exact Or.inl hx
        · refine Or.inr ⟨hp, ?_⟩
          unfold faultedRoles
          rw [if_neg (by omega), if_neg (by omega), if_pos hfr]
      · exact Or.inl rfl
  · obtain ⟨rfl, rfl⟩ := hdir hd
    obtain rfl := faulted_pde hp
    rw [faulted_dir]
    decide

theorem faulted_faulting (x : Word) (tf : Trapframe) (h : tf.tfCs &&& 3#16 ≠ 0#16) :
    Faulting (faulted x tf) 0 2 := by
  refine ⟨rfl, rfl, rfl, h, ?_⟩
  show (0x800020#32 : Word) ≠ 0#32
  decide

/-- The exception stack may be written. -/
theorem faulted_writable (x : Word) (tf : Trapframe) {va : Word} (h : OnStack va) :
    UserWritable (faulted x tf).phys 2 va := by
  obtain ⟨h1, h2⟩ := h
  have hlow := pgnum_lt_upn h2
  rw [BitVec.le_def, toNat_uxstackbase] at h1
  rw [BitVec.lt_def, toNat_uxstacktop] at h2
  have hpage : pgnum va = 954 * nptentries + 1023 := by
    rw [pgnum_eq, nptentries]
    omega
  refine ⟨hlow, ⟨4, true, true⟩, ?_, rfl, rfl⟩
  rw [hpage, faulted_walk x tf (by decide), faulted_table, if_pos rfl]
  decide

/-- The environment is admitted if its frame fits on the exception stack. -/
theorem faulted_admitted {x : Word} (hx : StackEntry x) {tf : Trapframe}
    (hcs : tf.tfCs &&& 3#16 ≠ 0#16) (h : uxstackbase ≤ utrapframeAddr tf.tfEsp) :
    Admitted (faulted x tf) 0 := by
  refine admitted_of_writable (faulted_spaces hx tf) (faulted_faulting x tf hcs) fun k hk => ?_
  refine faulted_writable x tf ?_
  have hesp : ((faulted x tf).envs 0).envTf.tfEsp = tf.tfEsp := rfl
  rw [hesp]
  obtain ⟨top, heq, -, hlo, hhi⟩ := utrapframeAddr_eq tf.tfEsp
  have hadd := toNat_frame_add hlo hk
  rw [← heq, ← toNat_utrapframeAddr heq hlo] at hadd
  have haddr := toNat_utrapframeAddr heq hlo
  rw [toNat_uxstacktop, pgsize] at hlo
  rw [toNat_uxstacktop] at hhi
  rw [BitVec.le_def] at h
  constructor
  · rw [BitVec.le_def, hadd]
    omega
  · rw [BitVec.lt_def, hadd, toNat_uxstacktop]
    omega

/-- The frame of a fault at `esp`. -/
def userFrame (esp : Word) : Trapframe := { freshTrapframe with tfEsp := esp }

theorem userFrame_cs (esp : Word) : (userFrame esp).tfCs &&& 3#16 ≠ 0#16 := by
  show freshTrapframe.tfCs &&& 3#16 ≠ 0#16
  decide

/-- The environment of `faulted` has faulted at `esp`, with memory `m`. -/
def again (m : Phys) (esp : Word) : Kernel := { faulted 0#32 (userFrame esp) with phys := m }

/-- The frame of a fault at `USTACKTOP`. -/
def firstFrame : StackFrame :=
  (uxstacktop - 56#32, utrapframe 0#32 (userFrame ustacktop))

/-- A fault on the ordinary stack, and one after it at `esp`. -/
theorem exists_nesting (esp : Word) : ∃ m, Nesting 0 2 (again m esp) [firstFrame] ∧
    (∃ ρ, Spaces (again m esp) ρ) ∧ Faulting (again m esp) 0 2 ∧
    (uxstackbase ≤ utrapframeAddr esp → Admitted (again m esp) 0) := by
  have hx : StackEntry 0#32 := Or.inl rfl
  have hs := faulted_spaces hx (userFrame ustacktop)
  have hf := faulted_faulting 0#32 _ (userFrame_cs ustacktop)
  have hadm := faulted_admitted hx (userFrame_cs ustacktop) (by decide)
  obtain ⟨s₁, hrun, hbr⟩ := hadm.branched hs hf 0#32
  have hn := Nesting.fault (.start hs) hf nofun (fun hon => absurd hon (by decide)) hadm hrun
  have hdata : ∀ f, faultedRoles f ≠ .data → s₁.phys f = (faulted 0#32 (userFrame esp)).phys f := by
    intro f hrole
    rw [hbr.phys]
    exact hs.putBytes_frame hf.dir (fun k hk => hbr.writable k (hk.trans (by decide))) _ hrole
  have hs' := faulted_spaces hx (userFrame esp)
  have hspaces : Spaces (again s₁.phys esp) faultedRoles := by
    constructor
    · apply hs'.typed.writeFrames
      · rfl
      · rfl
      · rfl
      intro f hnode k
      have hrole : faultedRoles f ≠ .data := by
        intro h0
        rw [h0] at hnode
        exact hnode
      exact congrFun (hdata f hrole) k
    · intro e d i hd hi hp
      have hrole : faultedRoles d ≠ .data := by
        rw [hs'.typed.tree.dir.mp hd]
        exact nofun
      have hword : (again s₁.phys esp).phys d i = (faulted 0#32 (userFrame esp)).phys d i :=
        congrFun (hdata d hrole) i
      rw [hword] at hp ⊢
      exact hs'.wide e d i hd hi hp
  have hfault : Faulting (again s₁.phys esp) 0 2 := by
    have h0 := faulted_faulting 0#32 _ (userFrame_cs esp)
    exact ⟨h0.curenv, h0.dir, h0.cr3, h0.user, h0.upcall⟩
  refine ⟨s₁.phys, hn.other hspaces fun _ _ _ _ => rfl, ⟨_, hspaces⟩, hfault, fun hfit => ?_⟩
  refine admitted_of_writable hspaces hfault fun k hk => ?_
  have hw := (faulted_admitted hx (userFrame_cs esp) hfit).writable hs' (faulted_faulting 0#32 _ (userFrame_cs esp)) hk
  obtain ⟨hlow, t, ht, hrights⟩ := hw
  refine ⟨hlow, t, ?_, hrights⟩
  rw [← ht]
  exact hs'.mmuWalk_eq (faulted_faulting 0#32 _ (userFrame_cs esp)).dir hdata hlow

/-- A second fault, a hundred bytes below the top of the exception stack. -/
theorem nested_holds_twice : ∃ s s', Nesting 0 2 s [firstFrame] ∧
    (s.envs 0).envTf.tfEsp = uxstacktop - 100#32 ∧
    s.pageFaultHandler 0#32 = .ok (.left, s') ∧ Holds s'.phys 2 firstFrame := by
  obtain ⟨m, hn, -, hf, hadm⟩ := exists_nesting (uxstacktop - 100#32)
  have hesp : ((again m (uxstacktop - 100#32)).envs 0).envTf.tfEsp = uxstacktop - 100#32 := rfl
  have hclear : Clear (again m (uxstacktop - 100#32)) 2 (uxstacktop - 100#32) :=
    fun _ => ⟨by decide, fun h0 => absurd h0 (by decide)⟩
  have hbelow : Below (uxstacktop - 100#32) [firstFrame] := by
    rintro f hmem
    obtain rfl := Option.some.inj hmem
    decide
  rcases nested_holds hn hf (by rw [hesp]; decide) hbelow hclear 0#32 with
    hdes | ⟨s', hrun, -, -, -, hhold, -⟩
  · exact absurd hdes (hadm (by decide)).not_destroyed
  · exact ⟨_, s', hn, hesp, hrun, hhold _ (List.mem_singleton.mpr rfl)⟩

/-- A second fault at the first address of the exception stack: the environment is not
destroyed, and the new frame takes the place of the first. -/
theorem not_nested_holds : ∃ s s', Nesting 0 2 s [firstFrame] ∧ Faulting s 0 2 ∧
    OnStack (s.envs 0).envTf.tfEsp ∧ Below (s.envs 0).envTf.tfEsp [firstFrame] ∧
    Admitted s 0 ∧ s.pageFaultHandler 1#32 = .ok (.left, s') ∧
    (s.envs 0).envTf.tfEsp < utrapframeAddr (s.envs 0).envTf.tfEsp ∧
    ¬ Holds s'.phys 2 firstFrame := by
  obtain ⟨m, hn, ⟨ρ, hs⟩, hf, hadm⟩ := exists_nesting uxstackbase
  have hesp : ((again m uxstackbase).envs 0).envTf.tfEsp = uxstackbase := rfl
  obtain ⟨s', hrun, hbr⟩ := (hadm (by decide)).branched hs hf 1#32
  refine ⟨_, s', hn, hf, ?_, ?_, hadm (by decide), hrun, ?_, fun hhold => ?_⟩
  · rw [hesp]
    decide
  · rintro f hmem
    obtain rfl := Option.some.inj hmem
    rw [hesp]
    decide
  · rw [hesp]
    decide
  · -- the first byte of the frame is the lowest byte of the address of the fault
    have hnew := hbr.holds hs hf.dir 0 (by rw [length_utrapframe]; decide)
    have hold := hhold 0 (by decide)
    have haddr : utrapframeAddr uxstackbase = firstFrame.1 := by decide
    have hbytes : bytesOf (utrapframe 1#32 ((again m uxstackbase).envs 0).envTf) 0 = 1#8 := by
      show byte 1#32 0 = 1#8
      decide
    rw [hesp] at hnew
    dsimp only at hnew
    rw [haddr, hbytes, hold] at hnew
    exact absurd (Option.some.inj hnew) (by decide)

end Kernel
end PmakeOs
