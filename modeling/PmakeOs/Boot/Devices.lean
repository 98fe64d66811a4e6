import PmakeOs.Boot.Mappings
import PmakeOs.Boot.Addresses

/-!
# `mmio_map_region`

The device window is handed out from `MMIOBASE` up, by whole pages.  The size of a region
is computed as the difference of two rounded addresses, and the end of the region is
compared with `MMIOLIM`.  Both may wrap: `Fits` says that they do not, and
`mmioMapRegion_reserves` that this is when a call reserves what it should.

The region maps whole pages from the start of the page that holds `pa`, and the result is
the start of the region.  So the first byte of the device is at the result only if `pa` is
the start of a page (`mmioMapRegion_translates`).
-/

namespace PmakeOs
namespace Kernel

variable {s s' : Kernel} {l : List ℕ} {base base' v pa size : Word} {rs : List (Word × ℕ)}

/-- The bytes of the pages that hold `[pa, pa + size)`. -/
def spanBytes (pa size : Word) : ℕ := pageCeil (pa.toNat + size.toNat) - pa.toNat / 4096 * 4096

/-- The end of the region is an address. -/
def Fits (base pa size : Word) : Prop := base.toNat + spanBytes pa size < 2 ^ 32

instance (base pa size : Word) : Decidable (Fits base pa size) :=
  inferInstanceAs (Decidable (_ < _))

/-- The size that `mmio_map_region` computes. -/
def mmioSize (pa size : Word) : Word :=
  roundup (pa + size) (BitVec.ofNat 32 pgsize) - rounddown pa (BitVec.ofNat 32 pgsize)

theorem toNat_rounddown_pgsize (pa : Word) :
    (rounddown pa (BitVec.ofNat 32 pgsize)).toNat = pa.toNat / 4096 * 4096 := by
  rw [toNat_rounddown, show (BitVec.ofNat 32 pgsize).toNat = 4096 by decide]
  omega

theorem toNat_mmioSize (pa size : Word) : (mmioSize pa size).toNat = spanBytes pa size % 2 ^ 32 := by
  have hpa := pa.isLt
  have hsize := size.isLt
  rw [mmioSize, BitVec.toNat_sub, toNat_rounddown_pgsize, toNat_roundup_mod, BitVec.toNat_add,
    spanBytes]
  unfold pageCeil
  omega

/-- `mmio_map_region` as its parts. -/
theorem mmioMapRegion_eq (s : Kernel) (base pa size : Word) : s.mmioMapRegion base pa size =
    if mmiolim ≤ base + mmioSize pa size then .error .mmioMapRegion
    else do
      let s ← s.bootMapRegion s.kernPgdir base (mmioSize pa size)
        (rounddown pa (BitVec.ofNat 32 pgsize)) mmioPerm
      return (base, base + mmioSize pa size, s) := rfl

/-- **What a call that returns has done.** -/
theorem of_mmioMapRegion (hrun : s.mmioMapRegion base pa size = .ok (v, base', s')) :
    v = base ∧ base' = base + mmioSize pa size ∧ base + mmioSize pa size < mmiolim ∧
      s.bootMapRegion s.kernPgdir base (mmioSize pa size)
        (rounddown pa (BitVec.ofNat 32 pgsize)) mmioPerm = .ok s' := by
  rw [mmioMapRegion_eq] at hrun
  split at hrun
  · cases hrun
  · rename_i hlt
    obtain ⟨x, hx, hret⟩ := bind_eq_ok.mp hrun
    obtain ⟨rfl, heq⟩ := Prod.mk.inj (Except.ok.inj hret)
    obtain ⟨rfl, rfl⟩ := Prod.mk.inj heq
    exact ⟨rfl, rfl, BitVec.not_le.mp hlt, hx⟩

/-! ## What is reserved -/

/-- The kernel after calls of `mmio_map_region` that meet a condition, with the next `base`
and the regions so far, by address and size.  Other code may change anything but the form
of the tables. -/
inductive MmioRun (ok : Word → Word → Word → Prop) : Kernel → Word → List (Word × ℕ) → Prop
  | start {s : Kernel} {l : List ℕ} : PrivateTables s s.kernPgdir l → MmioRun ok s mmiobase []
  | call {s s' : Kernel} {base base' v pa size : Word} {rs : List (Word × ℕ)} :
      MmioRun ok s base rs → ok base pa size →
      s.mmioMapRegion base pa size = .ok (v, base', s') →
        MmioRun ok s' base' ((v, (base' - v).toNat) :: rs)
  | other {s s' : Kernel} {base : Word} {rs : List (Word × ℕ)} {l : List ℕ} :
      MmioRun ok s base rs → PrivateTables s' s'.kernPgdir l → MmioRun ok s' base rs

/-- What a call should do: the result is `v`, and `base'` is the end of the region. -/
structure Reserves (s s' : Kernel) (rs : List (Word × ℕ)) (size v base' : Word) : Prop where
  aligned : v.toNat % pgsize = 0
  room : size.toNat ≤ (base' - v).toNat
  inside : mmiobase.toNat ≤ v.toNat ∧ v.toNat + (base' - v).toNat ≤ mmiolim.toNat
  disjoint : ∀ r ∈ rs, r.1.toNat + r.2 ≤ v.toNat ∨ v.toNat + (base' - v).toNat ≤ r.1.toNat
  /-- No mapping outside the region changes.  A new table shows in the window at `UVPT`. -/
  other : ∀ u < 2 ^ 20,
    ¬ (v.toNat / pgsize ≤ u ∧ u < (v.toNat + (base' - v).toNat) / pgsize) →
    translation s'.phys s.kernPgdir u = translation s.phys s.kernPgdir u ∨
      ∃ i ∈ newTables s s' s.kernPgdir, u = pdx uvpt * nptentries + i

theorem toNat_mmiobase : mmiobase.toNat = 958 * 2 ^ 22 := by decide

theorem toNat_mmiolim : mmiolim.toNat = 959 * 2 ^ 22 := by decide

/-- A region that fits: its size, and its pages. -/
structure Fitting (base pa size : Word) : Prop where
  bytes : (mmioSize pa size).toNat = spanBytes pa size
  pages : regionPages (mmioSize pa size) = spanBytes pa size / 4096
  whole : spanBytes pa size % 4096 = 0
  le : base.toNat + spanBytes pa size < mmiolim.toNat
  page : ∀ k < spanBytes pa size / 4096,
    pgnum (base + BitVec.ofNat 32 (k * pgsize)) = base.toNat / 4096 + k
  index : ∀ k < regionPages (mmioSize pa size),
    pdx (base + BitVec.ofNat 32 (k * pgsize)) ≠ pdx uvpt

theorem Fits.fitting (h : Fits base pa size) (hlo : mmiobase.toNat ≤ base.toNat)
    (hlt : base + mmioSize pa size < mmiolim) : Fitting base pa size := by
  rw [Fits] at h
  have hsize : (mmioSize pa size).toNat = spanBytes pa size := by
    rw [toNat_mmioSize, Nat.mod_eq_of_lt (by omega)]
  have hwhole : spanBytes pa size % 4096 = 0 := by
    rw [spanBytes, pageCeil]
    omega
  have hpages : regionPages (mmioSize pa size) = spanBytes pa size / 4096 := by
    rw [regionPages, hsize, pgsize, if_neg (by omega)]
  have hle : base.toNat + spanBytes pa size < mmiolim.toNat := by
    rw [BitVec.lt_def, BitVec.toNat_add, hsize, Nat.mod_eq_of_lt h] at hlt
    exact hlt
  have hpage : ∀ k < spanBytes pa size / 4096,
      pgnum (base + BitVec.ofNat 32 (k * pgsize)) = base.toNat / 4096 + k := by
    intro k hk
    rw [pgnum_add _ (by rw [pgsize]; omega), pgnum_eq]
    rfl
  refine ⟨hsize, hpages, hwhole, hle, hpage, fun k hk => ?_⟩
  rw [hpages] at hk
  rw [← pgnum_div, hpage k hk, pdx_uvpt, nptentries]
  rw [toNat_mmiobase] at hlo
  omega

/-- The tables, after a call that fits. -/
theorem PrivateTables.of_mmioMapRegion (h : PrivateTables s s.kernPgdir l)
    (hf : Fitting base pa size)
    (hrun : s.bootMapRegion s.kernPgdir base (mmioSize pa size)
      (rounddown pa (BitVec.ofNat 32 pgsize)) mmioPerm = .ok s') :
    s'.kernPgdir = s.kernPgdir ∧ (∃ m, PrivateTables s' s.kernPgdir m) ∧
      MapsRegion s s' s.kernPgdir l base (mmioSize pa size)
        (rounddown pa (BitVec.ofNat 32 pgsize)) mmioPerm := by
  obtain ⟨m, hm⟩ := h.of_bootMapRegion hf.index hrun
  refine ⟨hm.kernPgdir, ⟨m, hm.tables⟩, hm.mapsRegion h hf.index ?_ (by decide)⟩
  rw [toNat_rounddown_pgsize, pgsize]
  omega

/-- What holds of `base` between calls that fit. -/
structure Between (s : Kernel) (base : Word) (rs : List (Word × ℕ)) : Prop where
  aligned : base.toNat % pgsize = 0
  ge : mmiobase.toNat ≤ base.toNat
  le : base.toNat ≤ mmiolim.toNat
  below : ∀ r ∈ rs, r.1.toNat + r.2 ≤ base.toNat
  tables : ∃ l, PrivateTables s s.kernPgdir l

theorem Fitting.toNat_add (h : Fitting base pa size) :
    (base + mmioSize pa size).toNat = base.toNat + spanBytes pa size := by
  have hle := h.le
  rw [toNat_mmiolim] at hle
  rw [BitVec.toNat_add, h.bytes, Nat.mod_eq_of_lt (by omega)]

theorem add_sub_self (base w : Word) : base + w - base = w := by
  rw [BitVec.add_comm, BitVec.add_sub_cancel]

theorem MmioRun.between (h : MmioRun Fits s base rs) : Between s base rs := by
  induction h with
  | start hs => exact ⟨by decide, Nat.le_refl _, by decide, by simp, _, hs⟩
  | @call s s' base base' v pa size rs _ hfits hrun ih =>
    obtain ⟨rfl, rfl, hlt, hmap⟩ := of_mmioMapRegion hrun
    obtain ⟨l, hs⟩ := ih.tables
    have hf := hfits.fitting ih.ge hlt
    have hal := ih.aligned
    have hge := ih.ge
    have hle := hf.le
    have hwhole := hf.whole
    obtain ⟨hk, ⟨m, hm⟩, -⟩ := hs.of_mmioMapRegion hf hmap
    refine ⟨?_, ?_, ?_, ?_, m, by rw [hk]; exact hm⟩
    · rw [pgsize] at hal ⊢
      rw [hf.toNat_add]
      omega
    · rw [hf.toNat_add]
      omega
    · rw [hf.toNat_add]
      omega
    · intro r hr
      rw [hf.toNat_add]
      rcases List.mem_cons.mp hr with rfl | hr
      · dsimp only
        rw [add_sub_self, hf.bytes]
      · exact (ih.below r hr).trans (Nat.le_add_right _ _)
  | other _ hs ih => exact ⟨ih.aligned, ih.ge, ih.le, ih.below, _, hs⟩

/-- **When `mmio_map_region` reserves a region**, after calls that did. -/
theorem mmioMapRegion_reserves (h : MmioRun Fits s base rs)
    (hrun : s.mmioMapRegion base pa size = .ok (v, base', s')) :
    Reserves s s' rs size v base' ↔ Fits base pa size := by
  have hb := h.between
  obtain ⟨rfl, rfl, hlt, hmap⟩ := of_mmioMapRegion hrun
  constructor
  · intro hres
    have hroom := hres.room
    have hin := hres.inside.2
    rw [add_sub_self, toNat_mmioSize] at hroom hin
    rw [toNat_mmiolim] at hin
    have hpa := pa.isLt
    have hsize := size.isLt
    rw [Fits]
    unfold spanBytes pageCeil at hroom hin ⊢
    omega
  · intro hfits
    obtain ⟨l, hs⟩ := hb.tables
    have hf := hfits.fitting hb.ge hlt
    obtain ⟨-, -, hmaps⟩ := hs.of_mmioMapRegion hf hmap
    have hal := hb.aligned
    have hwhole := hf.whole
    refine ⟨hal, ?_, ⟨hb.ge, ?_⟩, fun r hr => Or.inl (hb.below r hr), fun u hu hout => ?_⟩
    · rw [add_sub_self, hf.bytes, spanBytes, pageCeil]
      omega
    · rw [add_sub_self, hf.bytes]
      exact Nat.le_of_lt hf.le
    · refine hmaps.other u hu fun k hk => ?_
      rw [hf.pages] at hk
      rw [hf.page k hk]
      rintro rfl
      refine hout ⟨?_, ?_⟩
      · rw [pgsize]
        omega
      · rw [add_sub_self, hf.bytes, pgsize]
        rw [pgsize] at hal
        omega

/-- A call with a free page for every page of the region. -/
theorem PrivateTables.mmioMapRegion_ok (h : PrivateTables s s.kernPgdir l)
    (hlt : base + mmioSize pa size < mmiolim)
    (hu : ∀ k < regionPages (mmioSize pa size),
      pdx (base + BitVec.ofNat 32 (k * pgsize)) ≠ pdx uvpt)
    (hn : regionPages (mmioSize pa size) ≤ l.length) :
    ∃ s' m, s.mmioMapRegion base pa size = .ok (base, base + mmioSize pa size, s') ∧
      Mapping s s.kernPgdir l base (rounddown pa (BitVec.ofNat 32 pgsize)) mmioPerm
        (regionPages (mmioSize pa size)) s' m := by
  have hcard : (missingTables s s.kernPgdir base (mmioSize pa size)).card ≤ l.length := by
    refine (Finset.card_filter_le _ _).trans (Finset.card_image_le.trans ?_)
    rw [Finset.card_range]
    exact hn
  obtain ⟨s', m, hrun, hm⟩ := h.bootMapRegion_ok hu hcard
    (rounddown pa (BitVec.ofNat 32 pgsize)) mmioPerm
  refine ⟨s', m, ?_, hm⟩
  rw [mmioMapRegion_eq, if_neg (BitVec.not_le.mpr hlt), hrun]
  rfl

/-- There are pages for the table of the device window. -/
theorem bareDir_mmioMapRegion (pa size : Word) (hlt : mmiobase + mmioSize pa size < mmiolim)
    (hu : ∀ k < regionPages (mmioSize pa size),
      pdx (mmiobase + BitVec.ofNat 32 (k * pgsize)) ≠ pdx uvpt)
    (hn : regionPages (mmioSize pa size) ≤ 2) :
    ∃ s', bareDir.mmioMapRegion mmiobase pa size =
      .ok (mmiobase, mmiobase + mmioSize pa size, s') := by
  obtain ⟨s', m, hrun, -⟩ := privateTables_bareDir.mmioMapRegion_ok hlt hu hn
  exact ⟨s', hrun⟩

/-- The local interrupt controller, and behind it the other one. -/
theorem mmioMapRegion_reserves_twoControllers : ∃ s s',
    bareDir.mmioMapRegion mmiobase 0xFEE00000#32 4096#32 = .ok (mmiobase, mmiobase + 4096#32, s) ∧
    s.mmioMapRegion (mmiobase + 4096#32) 0xFEC00000#32 4096#32 =
      .ok (mmiobase + 4096#32, mmiobase + 8192#32, s') ∧
    Reserves s s' [(mmiobase, 4096)] 4096#32 (mmiobase + 4096#32) (mmiobase + 8192#32) := by
  obtain ⟨s, m, hrun, hm⟩ := privateTables_bareDir.mmioMapRegion_ok
    (show mmiobase + mmioSize 0xFEE00000#32 4096#32 < mmiolim by decide) (by decide) (by decide)
  have hlen := hm.length_le
  have htables := hm.tables
  rw [show regionPages (mmioSize 0xFEE00000#32 4096#32) = 1 by decide] at hlen
  rw [← hm.kernPgdir] at htables
  have hroom : regionPages (mmioSize 0xFEC00000#32 4096#32) ≤ m.length :=
    Nat.le_of_add_le_add_right hlen
  obtain ⟨s', -, hrun', -⟩ := htables.mmioMapRegion_ok
    (show mmiobase + 4096#32 + mmioSize 0xFEC00000#32 4096#32 < mmiolim by decide) (by decide)
    hroom
  have hfirst : MmioRun Fits s _ _ := .call (.start privateTables_bareDir) (by decide) hrun
  exact ⟨s, s', hrun, hrun', (mmioMapRegion_reserves hfirst hrun').mpr (by decide)⟩

/-- A size that wraps to zero reserves nothing. -/
theorem not_mmioMapRegion_reserves : ¬ ∀ (s s' : Kernel) (base base' v pa size : Word)
    (rs : List (Word × ℕ)), MmioRun (fun _ _ _ => True) s base rs →
      s.mmioMapRegion base pa size = .ok (v, base', s') → Reserves s s' rs size v base' := by
  intro h
  obtain ⟨s', hrun⟩ := bareDir_mmioMapRegion 0#32 0xFFFFFFFF#32 (by decide) (by decide)
    (by decide)
  have hres := h _ _ _ _ _ _ _ [] (.start privateTables_bareDir) hrun
  have hroom := hres.room
  revert hroom
  decide

/-! ## What is seen in the region -/

/-- Byte `i` of the region is byte `i` of the device, for the kernel only and uncached. -/
def DeviceMapped (s : Kernel) (v pa size : Word) : Prop :=
  ∀ i < size.toNat, ∃ w, userPte s.phys s.kernPgdir (pgnum (v + BitVec.ofNat 32 i)) = some w ∧
    page2pa (frame w) + BitVec.ofNat 32 ((v + BitVec.ofNat 32 i).toNat % pgsize) =
      pa + BitVec.ofNat 32 i ∧
    Has w pteW ∧ Has w ptePcd ∧ Has w ptePwt ∧ ¬ Has w pteU

/-- A flag is among the low bits. -/
theorem has_iff_pteFlags {w f : Word} (hf : 0xFFF#32 &&& f = f) : Has w f ↔ Has (pteFlags w) f := by
  unfold Has pteFlags
  rw [BitVec.and_assoc, hf]

/-- The physical address of byte `i` of the region. -/
theorem page2pa_add_offset (pa : Word) (i : ℕ) :
    page2pa (pgnum (rounddown pa (BitVec.ofNat 32 pgsize) +
        BitVec.ofNat 32 (i / pgsize * pgsize))) + BitVec.ofNat 32 (i % pgsize) =
      rounddown pa (BitVec.ofNat 32 pgsize) + BitVec.ofNat 32 i := by
  have hpa := pa.isLt
  apply BitVec.eq_of_toNat_eq
  have hpg : pgnum (rounddown pa (BitVec.ofNat 32 pgsize) +
      BitVec.ofNat 32 (i / pgsize * pgsize)) = (pa.toNat / 4096 + i / 4096) % 2 ^ 20 := by
    rw [pgnum_eq, BitVec.toNat_add, toNat_rounddown_pgsize, BitVec.toNat_ofNat, pgsize]
    omega
  rw [hpg, BitVec.toNat_add, toNat_page2pa (Nat.mod_lt _ (by decide)), BitVec.toNat_add,
    toNat_rounddown_pgsize, BitVec.toNat_ofNat, BitVec.toNat_ofNat, pgsize]
  omega

/-- The entries of a region inside the window: byte `i` is `i` bytes behind the start of the
page that holds `pa`. -/
theorem PrivateTables.byte_of_mmioMapRegion (h : PrivateTables s s.kernPgdir l)
    (hal : v.toNat % pgsize = 0) (hf : Fitting v pa size)
    (hmap : s.bootMapRegion s.kernPgdir v (mmioSize pa size)
      (rounddown pa (BitVec.ofNat 32 pgsize)) mmioPerm = .ok s') {i : ℕ} (hi : i < size.toNat) :
    ∃ w, userPte s'.phys s'.kernPgdir (pgnum (v + BitVec.ofNat 32 i)) = some w ∧
      page2pa (frame w) + BitVec.ofNat 32 ((v + BitVec.ofNat 32 i).toNat % pgsize) =
        rounddown pa (BitVec.ofNat 32 pgsize) + BitVec.ofNat 32 i ∧
      pteFlags w = mmioPerm ||| pteP := by
  obtain ⟨hk, -, hmaps⟩ := h.of_mmioMapRegion hf hmap
  rw [pgsize] at hal
  have hspan : size.toNat ≤ spanBytes pa size := by
    rw [spanBytes, pageCeil]
    omega
  have hwhole := hf.whole
  have hle := hf.le
  rw [toNat_mmiolim] at hle
  have hkn : i / 4096 < spanBytes pa size / 4096 := by omega
  have hsum : (v + BitVec.ofNat 32 i).toNat = v.toNat + i := by
    rw [BitVec.toNat_add, BitVec.toNat_ofNat]
    omega
  have hpage : pgnum (v + BitVec.ofNat 32 i) =
      pgnum (v + BitVec.ofNat 32 (i / pgsize * pgsize)) := by
    rw [show i / pgsize = i / 4096 from rfl, hf.page _ hkn, pgnum_eq, hsum]
    omega
  have htr := hmaps.mapped (i / pgsize) (by rw [hf.pages]; exact hkn)
  rw [← hpage, translation] at htr
  obtain ⟨w, hw, hpair⟩ := Option.map_eq_some_iff.mp htr
  obtain ⟨hframe, hflags⟩ := Prod.mk.inj hpair
  refine ⟨w, by rw [hk]; exact hw, ?_, hflags⟩
  have hoff : (v + BitVec.ofNat 32 i).toNat % pgsize = i % pgsize := by
    rw [hsum, pgsize]
    omega
  rw [hframe, hoff, page2pa_add_offset]

/-- A region inside the window does not wrap. -/
theorem fits_of_inside (hin : v.toNat + size.toNat ≤ mmiolim.toNat) (pa : Word) :
    Fits v pa size := by
  have hpa := pa.isLt
  rw [toNat_mmiolim] at hin
  rw [Fits, spanBytes, pageCeil]
  omega

/-- **When the device is at the result of `mmio_map_region`.** -/
theorem mmioMapRegion_translates (h : PrivateTables s s.kernPgdir l)
    (hal : base.toNat % pgsize = 0) (hrun : s.mmioMapRegion base pa size = .ok (v, base', s'))
    (hin : mmiobase.toNat ≤ v.toNat ∧ v.toNat + size.toNat ≤ mmiolim.toNat) :
    DeviceMapped s' v pa size ↔ pa.toNat % pgsize = 0 ∨ size = 0#32 := by
  obtain ⟨rfl, rfl, hlt, hmap⟩ := of_mmioMapRegion hrun
  have hf := (fits_of_inside hin.2 pa).fitting hin.1 hlt
  have hbyte := fun i => h.byte_of_mmioMapRegion (i := i) hal hf hmap
  constructor
  · intro hdev
    by_contra hnot
    push Not at hnot
    obtain ⟨hpa', hsize⟩ := hnot
    have hpos : 0 < size.toNat := by
      rw [Nat.pos_iff_ne_zero]
      exact fun h0 => hsize (BitVec.eq_of_toNat_eq h0)
    obtain ⟨w, hw, haddr, -⟩ := hdev 0 hpos
    obtain ⟨w', hw', haddr', -⟩ := hbyte 0 hpos
    obtain rfl : w = w' := Option.some.inj (hw.symm.trans hw')
    rw [haddr'] at haddr
    have hnat := congrArg BitVec.toNat haddr
    rw [BitVec.add_zero, BitVec.add_zero, toNat_rounddown_pgsize] at hnat
    rw [pgsize] at hpa'
    omega
  · intro hpa' i hi
    have hal' : pa.toNat % pgsize = 0 := by
      refine hpa'.resolve_right ?_
      rintro rfl
      exact absurd hi (by simp)
    have hround : rounddown pa (BitVec.ofNat 32 pgsize) = pa := by
      apply BitVec.eq_of_toNat_eq
      rw [toNat_rounddown_pgsize]
      rw [pgsize] at hal'
      omega
    obtain ⟨w, hw, haddr, hflags⟩ := hbyte i hi
    rw [hround] at haddr
    refine ⟨w, hw, haddr, ?_⟩
    rw [has_iff_pteFlags (f := pteW) (by decide), has_iff_pteFlags (f := ptePcd) (by decide),
      has_iff_pteFlags (f := ptePwt) (by decide), has_iff_pteFlags (f := pteU) (by decide), hflags]
    decide

theorem mmioMapRegion_translates_lapic : ∃ v base' s',
    bareDir.mmioMapRegion mmiobase 0xFEE00000#32 4096#32 = .ok (v, base', s') ∧
      DeviceMapped s' v 0xFEE00000#32 4096#32 := by
  obtain ⟨s', hrun⟩ := bareDir_mmioMapRegion 0xFEE00000#32 4096#32 (by decide) (by decide)
    (by decide)
  exact ⟨_, _, s', hrun, (mmioMapRegion_translates privateTables_bareDir (by decide) hrun
    (by decide)).mpr (Or.inl (by decide))⟩

/-- A device whose registers do not begin at the start of a page. -/
theorem not_mmioMapRegion_translates : ¬ ∀ (s s' : Kernel) (l : List ℕ)
    (base base' v pa size : Word), PrivateTables s s.kernPgdir l → base.toNat % pgsize = 0 →
      s.mmioMapRegion base pa size = .ok (v, base', s') →
      mmiobase.toNat ≤ v.toNat ∧ v.toNat + size.toNat ≤ mmiolim.toNat →
        DeviceMapped s' v pa size := by
  intro h
  obtain ⟨s', hrun⟩ := bareDir_mmioMapRegion 0xFED00010#32 16#32 (by decide) (by decide)
    (by decide)
  obtain ⟨w, hw, haddr, -⟩ := h _ _ _ _ _ _ _ _ privateTables_bareDir (by decide) hrun (by decide) 0
    (by decide)
  obtain ⟨-, -, hlt, hmap⟩ := of_mmioMapRegion hrun
  have hin : mmiobase.toNat + (16#32 : Word).toNat ≤ mmiolim.toNat := by decide
  have hf := (fits_of_inside hin 0xFED00010#32).fitting (Nat.le_refl _) hlt
  obtain ⟨w', hw', haddr', -⟩ := privateTables_bareDir.byte_of_mmioMapRegion (i := 0) (by decide) hf
    hmap (by decide)
  obtain rfl : w = w' := Option.some.inj (hw.symm.trans hw')
  rw [haddr'] at haddr
  revert haddr
  decide

end Kernel
end PmakeOs
