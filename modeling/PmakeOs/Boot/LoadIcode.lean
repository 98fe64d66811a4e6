import PmakeOs.Boot.RegionAlloc
import PmakeOs.Boot.Accepts

/-!
# `load_icode`

What the first programs find in memory.  A segment is mapped, cleared and copied
(`Loaded.segment`), and since its pages are none of the pages before, what was loaded before it
stays; so after the loop over the program headers every segment is as its header says
(`LoadedBefore`), and with the page of the stack that is all there is below `UTOP`.

`env_alloc` in a sound state gives the fresh environment that `load_icode` is called with
(`fresh_of_envAlloc`).
-/

namespace PmakeOs

open Lib

namespace Kernel

variable {s x y : Kernel} {d e : ℕ} {l m : List ℕ} {M : Finset ℕ} {F : ℕ → ℕ}

/-! ## A segment -/

/-- What `load_icode` stores at byte `i` of a segment. -/
def segmentByte (binary : Image) (ph : Proghdr) (i : ℕ) : BitVec 8 :=
  if i < ph.pFilesz.toNat then binary (ph.pOffset.toNat + i) else 0#8

/-- **A segment is loaded**, and what was loaded before it stays. -/
theorem Loaded.segment {binary : Image} {k : ℕ} {ph : Proghdr} (h : Loaded d l M F x m)
    (hd : (x.envs e).envPgdir = some d) (hcr3 : x.thiscpu.cr3 = d) (hph : binary.proghdr k = ph)
    (hload : ph.pType = elfProgLoad) (hfile : ph.pFilesz ≤ ph.pMemsz)
    (hfit : ph.pVa.toNat + ph.pMemsz.toNat ≤ utop.toNat)
    (hnew : Disjoint (regionPageSet ph.pVa ph.pMemsz) M)
    (hroom : framesNeeded (M ∪ regionPageSet ph.pVa ph.pMemsz) ≤ l.length) :
    ∃ y F' m', loadProghdr e binary x k = .ok y ∧
      Loaded d l (M ∪ regionPageSet ph.pVa ph.pMemsz) F' y m' ∧ Spared d M F F' x y ∧
      ∀ i < ph.pMemsz.toNat,
        loadedByte y F' (ph.pVa + BitVec.ofNat 32 i) = segmentByte binary ph i := by
  have hut := toNat_utop
  rw [BitVec.le_def] at hfile
  have hset := regionPageSet_eq ph.pVa ph.pMemsz (by omega)
  have hadd : ∀ i < ph.pMemsz.toNat,
      (ph.pVa + BitVec.ofNat 32 i).toNat = ph.pVa.toNat + i := by
    intro i hi
    exact toNat_add_ofNat (by omega)
  have hmem : ∀ i < ph.pMemsz.toNat,
      pgnum (ph.pVa + BitVec.ofNat 32 i) ∈ M ∪ regionPageSet ph.pVa ph.pMemsz := by
    intro i hi
    exact Finset.mem_union_right _ (mem_regionPageSet (by omega) hi)
  obtain ⟨x₁, F', m', hrun₁, h₁, hsp₁⟩ := h.regionAlloc hd hfit hnew hroom
  obtain ⟨x₂, hrun₂, h₂, hsp₂, hbyte₂⟩ := h₁.pokeBytes (hsp₁.cr3.trans hcr3)
    (by omega : ph.pVa.toNat + ph.pMemsz.toNat ≤ 2 ^ 32) hmem fun _ => 0#8
  obtain ⟨x₃, hrun₃, h₃, hsp₃, hbyte₃⟩ := h₂.pokeBytes
    (hsp₂.cr3.trans (hsp₁.cr3.trans hcr3))
    (by omega : ph.pVa.toNat + ph.pFilesz.toNat ≤ 2 ^ 32) (fun i hi => hmem i (by omega))
    fun i => binary (ph.pOffset.toNat + i)
  refine ⟨x₃, F', m', ?_, h₃, ⟨hsp₁.only.trans (hsp₂.only.trans hsp₃.only), fun i hi => ?_,
    fun a ha => ?_⟩, fun i hi => ?_⟩
  · unfold loadProghdr
    rw [hph, if_pos hload, hrun₁, ok_bind, memset, hrun₂, ok_bind]
    exact hrun₃
  · exact (hsp₃.upper i hi).trans ((hsp₂.upper i hi).trans (hsp₁.upper i hi))
  · -- a page of `M` is none of this segment
    have hout : ¬ (ph.pVa.toNat ≤ a.toNat ∧ a.toNat < ph.pVa.toNat + ph.pMemsz.toNat) := by
      intro hin
      refine Finset.disjoint_left.mp hnew ?_ ha
      rw [hset, Finset.mem_Ico, pgnum_eq]
      omega
    have haM := Finset.mem_union_left (regionPageSet ph.pVa ph.pMemsz) ha
    rw [hbyte₃ a haM, if_neg (by omega), hbyte₂ a haM, if_neg hout, hsp₁.byte a ha]
  · rw [hbyte₃ _ (hmem i hi), hbyte₂ _ (hmem i hi), hadd i hi, segmentByte, Nat.add_sub_cancel_left]
    by_cases hlt : i < ph.pFilesz.toNat
    · rw [if_pos (by omega), if_pos hlt]
    · rw [if_neg (by omega), if_pos (by omega), if_neg hlt]

/-! ## The image -/

/-- The pages of program header `k`. -/
def segmentPages (binary : Image) (k : ℕ) : Finset ℕ :=
  if (binary.proghdr k).pType = elfProgLoad then
    regionPageSet (binary.proghdr k).pVa (binary.proghdr k).pMemsz
  else ∅

/-- The pages of the first `n` program headers. -/
def pagesBefore (binary : Image) (n : ℕ) : Finset ℕ :=
  (Finset.range n).biUnion (segmentPages binary)

/-- The page below `USTACKTOP`. -/
def stackPages : Finset ℕ :=
  regionPageSet (ustacktop - BitVec.ofNat 32 pgsize) (BitVec.ofNat 32 pgsize)

/-- The pages that a program starts with. -/
def imagePages (binary : Image) : Finset ℕ :=
  pagesBefore binary binary.elf.ePhnum.toNat ∪ stackPages

/-- What is asked of the segments of an image. -/
structure Loadable (binary : Image) : Prop where
  magic : binary.elf.eMagic = elfMagic
  size : ∀ k < binary.elf.ePhnum.toNat, (binary.proghdr k).pType = elfProgLoad →
    (binary.proghdr k).pFilesz ≤ (binary.proghdr k).pMemsz
  /-- The sum is one of natural numbers: a segment does not wrap. -/
  below : ∀ k < binary.elf.ePhnum.toNat, (binary.proghdr k).pType = elfProgLoad →
    (binary.proghdr k).pVa.toNat + (binary.proghdr k).pMemsz.toNat ≤
      (ustacktop - BitVec.ofNat 32 pgsize).toNat
  disjoint : ∀ k < binary.elf.ePhnum.toNat, ∀ k' < binary.elf.ePhnum.toNat, k ≠ k' →
    Disjoint (segmentPages binary k) (segmentPages binary k')

/-- What `load_icode` leaves in the environment `e` with the directory `d`. -/
structure LoadsImage (s x : Kernel) (e d : ℕ) (l : List ℕ) (binary : Image) (F : ℕ → ℕ) :
    Prop where
  mapped : ∀ v ∈ imagePages binary, v < upn ∧
    userPte x.phys d v = some (page2pa (F v) ||| (pteW ||| pteU) ||| pteP) ∧
    mmuWalk x.phys d v = some ⟨F v, true, true⟩
  other : ∀ v < upn, v ∉ imagePages binary → mmuWalk x.phys d v = none
  upper : ∀ i, pdx utop ≤ i → x.phys d i = s.phys d i
  taken : ∀ v ∈ imagePages binary, F v ∈ l
  distinct : ∀ v ∈ imagePages binary, ∀ v' ∈ imagePages binary, F v = F v' → v = v'
  bytes : ∀ k < binary.elf.ePhnum.toNat, (binary.proghdr k).pType = elfProgLoad →
    ∀ i < (binary.proghdr k).pMemsz.toNat,
      byteAt x.phys d ((binary.proghdr k).pVa + BitVec.ofNat 32 i) =
        some (segmentByte binary (binary.proghdr k) i)
  envs : x.envs = Function.update s.envs e { s.envs e with
    envTf := { (s.envs e).envTf with tfEip := binary.elf.eEntry } }

theorem toNat_ustack : (ustacktop - BitVec.ofNat 32 pgsize).toNat = 4096 * (955 * 1024 - 3) := by
  decide

theorem pagesBefore_succ (binary : Image) (n : ℕ) :
    pagesBefore binary (n + 1) = pagesBefore binary n ∪ segmentPages binary n := by
  rw [pagesBefore, Finset.range_add_one, Finset.biUnion_insert, Finset.union_comm]
  rfl

theorem pagesBefore_mono (binary : Image) {n n' : ℕ} (h : n ≤ n') :
    pagesBefore binary n ⊆ pagesBefore binary n' :=
  Finset.biUnion_subset_biUnion_of_subset_left _ (Finset.range_mono h)

section

variable {binary : Image}

/-- The pages of the loadable headers `k` on are not used before. -/
theorem Loadable.disjoint_before (hb : Loadable binary) {k : ℕ} (hk : k < binary.elf.ePhnum.toNat) :
    Disjoint (segmentPages binary k) (pagesBefore binary k) := by
  rw [pagesBefore, Finset.disjoint_biUnion_right]
  intro j hj
  have hjk := Finset.mem_range.mp hj
  exact hb.disjoint k hk j (by omega) (by omega)

/-- The bytes of the segments before `k` are in mapped pages. -/
theorem Loadable.mem_before (hb : Loadable binary) {j k i : ℕ} (hj : j < k)
    (hk : k ≤ binary.elf.ePhnum.toNat) (hload : (binary.proghdr j).pType = elfProgLoad)
    (hi : i < (binary.proghdr j).pMemsz.toNat) :
    pgnum ((binary.proghdr j).pVa + BitVec.ofNat 32 i) ∈ pagesBefore binary k := by
  have hbelow := hb.below j (by omega) hload
  rw [toNat_ustack] at hbelow
  refine Finset.mem_biUnion.mpr ⟨j, Finset.mem_range.mpr hj, ?_⟩
  rw [segmentPages, if_pos hload]
  exact mem_regionPageSet (by omega) hi

/-- The segments do not reach the page of the stack. -/
theorem Loadable.disjoint_stack (hb : Loadable binary) :
    Disjoint stackPages (pagesBefore binary binary.elf.ePhnum.toNat) := by
  have hut := toNat_ustack
  have hpg : (BitVec.ofNat 32 pgsize).toNat = 4096 := by decide
  rw [pagesBefore, Finset.disjoint_biUnion_right]
  intro k hk
  unfold segmentPages
  split
  · rename_i hload
    have hbelow := hb.below k (Finset.mem_range.mp hk) hload
    rw [stackPages, regionPageSet_eq _ _ (by omega), regionPageSet_eq _ _ (by omega),
      Finset.disjoint_left]
    intro v hv hv'
    rw [Finset.mem_Ico] at hv hv'
    omega
  · exact Finset.disjoint_empty_right _

/-- The program headers before `k` have been loaded. -/
structure LoadedBefore (s : Kernel) (d : ℕ) (l : List ℕ) (binary : Image) (k : ℕ) (y : Kernel)
    (F : ℕ → ℕ) (m : List ℕ) : Prop where
  loaded : Loaded d l (pagesBefore binary k) F y m
  spared : Spared d ∅ F F s y
  bytes : ∀ j < k, (binary.proghdr j).pType = elfProgLoad →
    ∀ i < (binary.proghdr j).pMemsz.toNat,
      loadedByte y F ((binary.proghdr j).pVa + BitVec.ofNat 32 i) =
        segmentByte binary (binary.proghdr j) i

/-- Nothing is said about bytes. -/
theorem Spared.weaken {F' : ℕ → ℕ} (h : Spared d M F F' x y) (G G' : ℕ → ℕ) :
    Spared d ∅ G G' x y :=
  ⟨h.only, h.upper, fun _ ha => absurd ha (Finset.notMem_empty _)⟩

/-- **One round of the loop of `load_icode`.** -/
theorem LoadedBefore.step (hb : Loadable binary) {k : ℕ} (hk : k < binary.elf.ePhnum.toNat)
    (hroom : framesNeeded (imagePages binary) ≤ l.length) (hd : (s.envs e).envPgdir = some d)
    (hcr3 : s.thiscpu.cr3 = d) (h : LoadedBefore s d l binary k x F m) :
    ∃ y, loadProghdr e binary x k = .ok y ∧ ∃ F' m', LoadedBefore s d l binary (k + 1) y F' m' := by
  have hnext := pagesBefore_succ binary k
  by_cases hload : (binary.proghdr k).pType = elfProgLoad
  · have hseg : segmentPages binary k =
        regionPageSet (binary.proghdr k).pVa (binary.proghdr k).pMemsz := if_pos hload
    have hbelow := hb.below k hk hload
    have hut := toNat_utop
    rw [toNat_ustack] at hbelow
    have hnew := hb.disjoint_before hk
    have hroom₁ : framesNeeded (pagesBefore binary k ∪ segmentPages binary k) ≤ l.length := by
      rw [← hnext]
      exact (framesNeeded_mono ((pagesBefore_mono binary hk).trans Finset.subset_union_left)).trans
        hroom
    rw [hseg] at hnew hroom₁ hnext
    obtain ⟨y, F', m', hrun, hy, hsp, hbytes⟩ := h.loaded.segment
      (by rw [h.spared.only.envs]; exact hd) (h.spared.cr3.trans hcr3) rfl hload
      (hb.size k hk hload) (by omega) hnew hroom₁
    rw [← hnext] at hy
    refine ⟨y, hrun, F', m', hy,
      (h.spared.weaken F' F').trans (hsp.weaken F' F') (Finset.Subset.refl _), fun j hj hjl i hi => ?_⟩
    rcases Nat.lt_succ_iff_lt_or_eq.mp hj with hlt | rfl
    · rw [hsp.byte _ (hb.mem_before hlt hk.le hjl hi)]
      exact h.bytes j hlt hjl i hi
    · exact hbytes i hi
  · have hseg : segmentPages binary k = ∅ := if_neg hload
    refine ⟨x, ?_, F, m, ?_, h.spared, fun j hj hjl i hi => ?_⟩
    · unfold loadProghdr
      rw [if_neg hload]
      rfl
    · rw [hnext, hseg, Finset.union_empty]
      exact h.loaded
    · rcases Nat.lt_succ_iff_lt_or_eq.mp hj with hlt | rfl
      · exact h.bytes j hlt hjl i hi
      · exact absurd hjl hload

/-- The tables do not depend on what else changes. -/
theorem Loaded.congr (h : Loaded d l M F x m) (hn : y.npages = x.npages) (hp : y.pages = x.pages)
    (hf : y.pageFreeList = x.pageFreeList) (hm : y.phys = x.phys) : Loaded d l M F y m := by
  obtain ⟨h₁, h₂, h₃, h₄, h₅, h₆, h₇, h₈, h₉, h₁₀, h₁₁, h₁₂, h₁₃, h₁₄, h₁₅⟩ := h
  have hl : y.links = x.links := by
    funext q
    rw [links, hp]
    rfl
  exact ⟨hn ▸ h₁, hn ▸ h₂, h₃, hl ▸ hf ▸ h₄, h₅, h₆, hm ▸ h₇, hm ▸ h₈, hm ▸ h₉, hm ▸ h₁₀, hm ▸ h₁₁,
    h₁₂, h₁₃, hm ▸ h₁₄, h₁₅⟩

/-- **`load_icode` on a fresh environment.** -/
theorem loadIcode_loads (hd : (s.envs e).envPgdir = some d) (hs : Fresh s d l)
    (hb : Loadable binary) (hroom : framesNeeded (imagePages binary) ≤ l.length) :
    ∃ x F, s.loadIcode e binary = .ok x ∧ LoadsImage s x e d l binary F := by
  have hut := toNat_utop
  have hus := toNat_ustack
  have hpg : (BitVec.ofNat 32 pgsize).toNat = 4096 := by decide
  -- the loop over the program headers
  have hstart : LoadedBefore (s.lcr3 d) d l binary 0 (s.lcr3 d) id l :=
    ⟨hs.loaded.congr rfl rfl rfl rfl, .refl d ∅ id _, fun j hj => absurd hj (Nat.not_lt_zero j)⟩
  have hcr3 : (s.lcr3 d).thiscpu.cr3 = d := by simp [Kernel.lcr3, setCpu, thiscpu]
  obtain ⟨y, hloop, F₁, m₁, hy⟩ := foldlM_range_ok (f := loadProghdr e binary)
    (n := binary.elf.ePhnum.toNat) (a := s.lcr3 d)
    (I := fun k y => ∃ F m, LoadedBefore (s.lcr3 d) d l binary k y F m) ⟨id, l, hstart⟩ (by
      rintro k hk y ⟨F, m, hy⟩
      exact hy.step hb hk hroom hd hcr3)
  -- the stack
  have henvs : y.envs = s.envs := hy.spared.only.envs
  obtain ⟨z, hz⟩ : ∃ z, z = (y.lcr3 y.kernPgdir).setEnv e { s.envs e with
      envTf := { (s.envs e).envTf with tfEip := binary.elf.eEntry } } := ⟨_, rfl⟩
  have hzl : Loaded d l (pagesBefore binary binary.elf.ePhnum.toNat) F₁ z m₁ :=
    hy.loaded.congr (by rw [hz]; rfl) (by rw [hz]; rfl) (by rw [hz]; rfl) (by rw [hz]; rfl)
  have hzphys : z.phys = y.phys := by
    rw [hz]
    rfl
  have hzenvs : z.envs = Function.update s.envs e { s.envs e with
      envTf := { (s.envs e).envTf with tfEip := binary.elf.eEntry } } := by
    rw [hz, ← henvs]
    rfl
  have hzd : (z.envs e).envPgdir = some d := by
    rw [hzenvs, Function.update_self]
    exact hd
  obtain ⟨x, F, m, hstack, hx, hsp⟩ := hzl.regionAlloc hzd (by rw [hus, hpg]; omega)
    hb.disjoint_stack hroom
  refine ⟨x, F, ?_, fun v hv => ⟨hx.user v hv, ?_, hx.mmuWalk_eq hv⟩, fun v hv hno => ?_,
    fun i hi => ?_, fun v hv => (hx.page v hv).1, hx.page_inj, fun k hk hload i hi => ?_, ?_⟩
  · unfold loadIcode
    rw [if_neg (not_not.mpr hb.magic), hd]
    dsimp only
    rw [hloop, ok_bind]
    have hye : (y.lcr3 y.kernPgdir).envs e = s.envs e := by
      rw [← henvs]
      rfl
    rw [hye, ← hz]
    exact hstack
  · rw [hx.userPte_eq (hx.user v hv)]
    exact if_pos hv
  · rw [Kernel.mmuWalk_eq, hx.userPte_eq hv]
    exact congrArg _ (if_neg hno)
  · rw [hsp.upper i hi, hzphys, hy.spared.upper i hi]
    rfl
  · have hmem := hb.mem_before hk le_rfl hload hi
    rw [hx.byteAt_eq (Finset.mem_union_left _ hmem), hsp.byte _ hmem, ← hy.bytes k hk hload i hi]
    unfold loadedByte
    rw [hzphys]
  · rw [hsp.only.envs, hzenvs]

end

/-! ## A fresh environment -/

/-- **`env_alloc` gives a fresh environment.** -/
theorem fresh_of_envAlloc {ρ : ℕ → Role} {parentId : Word} {r : ℤ} (h : Settled s ρ)
    (hrun : s.envAlloc parentId = .ok (r, some e, x)) :
    ∃ d l, (x.envs e).envPgdir = some d ∧ Fresh x d l := by
  rcases h.envAlloc (Q := fun _ => True) parentId with ⟨r', -, hno⟩ |
    ⟨e', p, he, hl, hok, hset, -⟩
  · rw [hno] at hrun
    exact nomatch (Prod.mk.inj (Prod.mk.inj (Except.ok.inj hrun)).2).1
  rw [hok] at hrun
  obtain ⟨-, hrest⟩ := Prod.mk.inj (Except.ok.inj hrun)
  obtain ⟨he', rfl⟩ := Prod.mk.inj hrest
  obtain rfl := Option.some.inj he'
  have hfree := h.ledger.typed.free.role_of_head hl
  have hpk : p ≠ s.kernPgdir := h.layout.ne_kernPgdir (by rw [hfree]; simp)
  obtain ⟨l, hlist, hmem⟩ := hset.ledger.typed.free.list
  refine ⟨p, l, ?_, hset.ledger.typed.window, hlist, fun q hq => ?_, fun hp => ?_, fun i hi => ?_⟩
  · exact (openEnv_envs_self s e' p parentId).2.1
  · refine hset.ledger.typed.lt ?_
    rw [(hmem q).mp hq]
    exact nofun
  · have hrole := (hmem p).mp hp
    rw [Function.update_self] at hrole
    cases hrole
  · rw [openEnv_phys s e' parentId hpk, if_pos rfl, if_neg]
    · exact h.layout.low hi
    · rw [pdx_utop] at hi
      rw [pdx_uvpt]
      omega

/-- **`env_create`** loads the image into the environment that `env_alloc` has set up. -/
theorem envCreate_loads {ρ : ℕ → Role} {binary : Image} (h : Settled s ρ)
    (hrun : s.envAlloc 0#32 = .ok (0, some e, y)) (hb : Loadable binary)
    (hroom : ∀ l, Threads y.links y.pageFreeList l → framesNeeded (imagePages binary) ≤ l.length) :
    ∃ x d l F, s.envCreate binary = .ok x ∧ LoadsImage y x e d l binary F := by
  obtain ⟨d, l, hd, hfresh⟩ := fresh_of_envAlloc h hrun
  obtain ⟨x, F, hload, hx⟩ := loadIcode_loads hd hfresh hb (hroom l hfresh.list)
  refine ⟨x, d, l, F, ?_, hx⟩
  unfold envCreate
  rw [hrun, ok_bind]
  dsimp only
  rw [if_neg (lt_irrefl 0), deref_some, ok_bind]
  exact hload

/-! ### A small program -/

/-- An image with two segments: code, and data of which four bytes are in the file. -/
def smallImage : Image := fun o =>
  byte (([0x464C457F, 0, 0, 0, 0x30002, 1, 0x800020, 52, 0, 0, 0x200034, 2, 0,
    1, 116, 0x800020, 0x800020, 4, 8, 5, 0x1000, 1, 120, 0x801000, 0x801000, 4, 0x1100, 6, 0x1000,
    0xCCCCCCCC, 0x12345678] : List Word).getD (o / 4) 0#32) (o % 4)

/-- A directory in frame 1 with nothing in it, and six free pages. -/
def freshEnv : Kernel :=
  { powerOn machine64 with
    pages := fun p => ⟨if 2 ≤ p ∧ p < 7 then some (p + 1) else none, 0#16⟩
    pageFreeList := some 2
    envs := fun e => { (powerOn machine64).envs e with envPgdir := some 1 } }

theorem fresh_freshEnv : Fresh freshEnv 1 [2, 3, 4, 5, 6, 7] := by
  refine ⟨by decide, .cons (.cons (.cons (.cons (.cons (.cons .nil))))), fun p hp => ?_, by decide,
    fun i _ => ?_⟩
  · have hn : freshEnv.npages = 16384 := by decide
    rw [hn]
    simp only [List.mem_cons, List.not_mem_nil, or_false] at hp
    omega
  · exact not_has_zero _

theorem smallImage_elf : smallImage.elf = ⟨elfMagic, 0x800020#32, 52#32, 2#16⟩ := by decide

theorem smallImage_proghdr :
    smallImage.proghdr 0 = ⟨elfProgLoad, 116#32, 0x800020#32, 4#32, 8#32⟩ ∧
      smallImage.proghdr 1 = ⟨elfProgLoad, 120#32, 0x801000#32, 4#32, 0x1100#32⟩ := by decide

theorem smallImage_segments :
    segmentPages smallImage 0 = {2048} ∧ segmentPages smallImage 1 = {2049, 2050} := by
  rw [segmentPages, segmentPages, smallImage_proghdr.1, smallImage_proghdr.2, if_pos rfl,
    if_pos rfl]
  decide

theorem smallImage_phnum : smallImage.elf.ePhnum.toNat = 2 := by
  rw [smallImage_elf]
  rfl

theorem smallImage_pages : imagePages smallImage = {2048, 2049, 2050, 977917} := by
  have hstack : stackPages = {977917} := by decide
  have hbefore : pagesBefore smallImage 2 =
      segmentPages smallImage 0 ∪ segmentPages smallImage 1 := by
    rw [pagesBefore_succ, pagesBefore, Finset.range_one, Finset.singleton_biUnion]
  rw [imagePages, smallImage_phnum, hbefore, smallImage_segments.1, smallImage_segments.2, hstack]
  rfl

theorem loadable_smallImage : Loadable smallImage := by
  obtain ⟨h0, h1⟩ := smallImage_proghdr
  obtain ⟨hp0, hp1⟩ := smallImage_segments
  have hcase : ∀ k < smallImage.elf.ePhnum.toNat, k = 0 ∨ k = 1 := fun k hk => by
    rw [smallImage_phnum] at hk
    omega
  refine ⟨by rw [smallImage_elf], fun k hk _ => ?_, fun k hk _ => ?_, fun k hk k' hk' hne => ?_⟩
  · rcases hcase k hk with rfl | rfl
    · rw [h0]
      decide
    · rw [h1]
      decide
  · rcases hcase k hk with rfl | rfl
    · rw [h0]
      decide
    · rw [h1]
      decide
  · rcases hcase k hk with rfl | rfl <;> rcases hcase k' hk' with rfl | rfl
    · exact absurd rfl hne
    · rw [hp0, hp1]
      decide
    · rw [hp0, hp1]
      decide
    · exact absurd rfl hne

theorem loadIcode_loads_smallImage : Fresh freshEnv 1 [2, 3, 4, 5, 6, 7] ∧ Loadable smallImage ∧
    imagePages smallImage = {2048, 2049, 2050, 977917} ∧
    ∃ x F, freshEnv.loadIcode 0 smallImage = .ok x ∧
      LoadsImage freshEnv x 0 1 [2, 3, 4, 5, 6, 7] smallImage F := by
  refine ⟨fresh_freshEnv, loadable_smallImage, smallImage_pages,
    loadIcode_loads rfl fresh_freshEnv loadable_smallImage ?_⟩
  rw [smallImage_pages]
  decide

end Kernel
end PmakeOs
