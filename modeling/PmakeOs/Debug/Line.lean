import PmakeOs.Debug.Inside
import Mathlib.Data.Int.LeastGreatest
import Mathlib.Data.Int.Range

/-!
# Which line `debuginfo_eip` reports

In a table where the files, the functions and the lines of each function are ordered, an
address belongs to a file, a function and a line.  Each search finds its part, where several
stabs may have one address, if no exact hit leads it astray (`Steady`).  Only the searches that
are made can be led astray (`Guided`).

The line is the right one then, unless there is an `N_SOL` stab in the function: the search for
the line is skipped in that case, and `eip_line` is taken from the stab of the function.
-/

namespace PmakeOs
namespace Kdebug

open Lib Filter

/-! ## What belongs to an address -/

/-- The last stab of the type that does not begin behind the address is at `q`, and its region
goes up to `e`: up to the next stab of the type, or to the end. -/
structure Region (stabs : ℤ → Stab) (type left right : ℤ) (addr : Word) (q e : ℤ) : Prop where
  ge : left ≤ q
  isType : IsType stabs type q
  value : (stabs q).nValue ≤ addr
  le : q ≤ e
  last : e ≤ right
  inside : ∀ i, q < i → i ≤ e → ¬ IsType stabs type i
  next : e = right ∨ IsType stabs type (e + 1) ∧ addr < (stabs (e + 1)).nValue

/-- No exact hit leads the search astray: none is at the last address of all, and if the next
stab is at the next address, then the bisection meets that stab before. -/
structure Steady (stabs : ℤ → Stab) (type left right : ℤ) (addr : Word) : Prop where
  max : ∀ i, left ≤ i → i ≤ right → IsType stabs type i → (stabs i).nValue = addr →
    addr ≠ BitVec.allOnes 32
  next : ∀ j k, Straddles stabs type left right addr j k → (stabs k).nValue = addr + 1#32 →
    SeenFirst stabs type j k left right

section

variable {stabs : ℤ → Stab} {type left right q e i : ℤ} {addr : Word} {out : ℤ × ℤ}

theorem Region.below (h : Region stabs type left right addr q e) :
    Below stabs left right type addr q :=
  ⟨h.ge, h.le.trans h.last, h.isType, h.value⟩

/-- Behind the region, all stabs are behind the address. -/
theorem Region.lt_of_lt (h : Region stabs type left right addr q e)
    (hs : Sorted stabs type left right) (hi : q < i) (hir : i ≤ right) (ht : IsType stabs type i) :
    e < i ∧ addr < (stabs i).nValue := by
  have hei : e < i := by
    by_contra hle
    exact h.inside i hi (by omega) ht
  have hge := h.ge
  have hle := h.le
  exact ⟨hei, hs.lt_of_cut (by omega) h.next hei hir ht⟩

/-- The comment of `stab_binsearch` describes the region. -/
theorem Region.eq_of_brackets (h : Region stabs type left right addr q e)
    (hs : Sorted stabs type left right) (hb : Brackets stabs left right type addr out) :
    out = (q, e) := by
  have hex : ∃ i, Below stabs left right type addr i := ⟨q, h.below⟩
  obtain ⟨-, hr, ht, hv⟩ := hb.below hex
  have hq : out.1 = q := by
    have hge := hb.last q h.below
    by_contra hne
    have hlt := (h.lt_of_lt hs (show q < out.1 by omega) hr ht).2
    exact absurd hv (BitVec.not_le.mpr hlt)
  obtain ⟨hinside, hnext⟩ := hb.next hex
  have hle := h.le
  have hlast := h.last
  have he : out.2 = e := by
    rcases lt_trichotomy out.2 e with hlt | heq | hgt
    · rcases hnext with heq | ⟨hle', -, ht'⟩
      · omega
      · exact absurd ht' (h.inside _ (by omega) (by omega))
    · exact heq
    · rcases h.next with heq | ⟨ht', -⟩
      · rcases hnext with heq' | ⟨-, hlt, -⟩
        · omega
        · omega
      · exact absurd ht' (hinside _ (by omega) (by omega))
  exact Prod.ext hq he

/-- The first index from `left` on with a property. -/
theorem exists_first_index {P : ℤ → Prop} (h : ∃ i, left ≤ i ∧ P i) :
    ∃ i, left ≤ i ∧ P i ∧ ∀ j, left ≤ j → j < i → ¬ P j := by
  classical
  obtain ⟨i, ⟨hi, hp⟩, hleast⟩ := Int.exists_least_of_bdd (P := fun i => left ≤ i ∧ P i)
    ⟨left, fun z hz => hz.1⟩ h
  refine ⟨i, hi, hp, fun j hj hji hpj => ?_⟩
  have := hleast j ⟨hj, hpj⟩
  omega

/-- The first stab at the address, and the first behind it. -/
theorem exists_straddles {j k : ℤ} (hs : Sorted stabs type left right) (hj : left ≤ j)
    (hjr : j ≤ right) (htj : IsType stabs type j) (hvj : (stabs j).nValue = addr) (hk : left ≤ k) (hkr : k ≤ right)
    (htk : IsType stabs type k) (hvk : addr < (stabs k).nValue) :
    ∃ j' k', Straddles stabs type left right addr j' k' ∧ k' ≤ k := by
  obtain ⟨j', hj', ⟨htj', hvj'⟩, hfirst⟩ := exists_first_index
    (P := fun i => IsType stabs type i ∧ (stabs i).nValue = addr) ⟨j, hj, htj, hvj⟩
  obtain ⟨k', hk', ⟨htk', hvk'⟩, hfirst'⟩ := exists_first_index
    (P := fun i => IsType stabs type i ∧ addr < (stabs i).nValue) ⟨k, hk, htk, hvk⟩
  have hkk : k' ≤ k := by
    by_contra hlt
    exact hfirst' k hk (by omega) ⟨htk, hvk⟩
  have hjj : j' ≤ j := by
    by_contra hlt
    exact hfirst j hj (by omega) ⟨htj, hvj⟩
  have hjk : j' < k' := hs.lt_of_value_lt (by omega) htj' hk' htk' (by rwa [hvj'])
  exact ⟨j', k', ⟨hj', hjk, by omega, htj', hvj', fun i hi hij ht hv => hfirst i hi hij ⟨ht, hv⟩,
    htk', hvk', fun i hi hik ht => BitVec.not_lt.mp fun hlt => hfirst' i hi hik ⟨ht, hlt⟩⟩, hkk⟩

/-- **The search finds the region**, if no exact hit leads it astray. -/
theorem Region.ends (h : Region stabs type left right addr q e)
    (hs : Sorted stabs type left right) (hst : Steady stabs type left right addr) :
    Ends stabs type ⟨left, right, addr, left, right, false⟩ (q, e) := by
  have hle : left ≤ right := h.ge.trans (h.le.trans h.last)
  by_cases hhit : ∃ i, left ≤ i ∧ i ≤ right ∧ IsType stabs type i ∧ (stabs i).nValue = addr
  · obtain ⟨i, hi, hir, hti, hvi⟩ := hhit
    obtain ⟨y, j, hj, hjr, htj, hvj, hy⟩ :=
      exists_hit (x := ⟨left, right, addr, left, right, false⟩) hs rfl hi hir hti hvi
    replace hj : left ≤ j := hj
    replace hvj : (stabs j).nValue = addr := hvj
    have hmax := hst.max j hj hjr htj hvj
    have hya : y.addr = addr + 1#32 := hy.addr
    have hyl := hy.l
    have hyr : y.r ≤ right := hy.le
    -- a stab at the next address has been cut off before the hit
    have hno : ∀ i, y.l ≤ i → i ≤ y.r → IsType stabs type i → (stabs i).nValue ≠ y.addr := by
      intro i hi hir hti hvi
      have hsucc := toNat_succ hmax
      have hgt : addr < (stabs i).nValue := by
        rw [hvi, hya, BitVec.lt_def, hsucc]
        omega
      obtain ⟨j', k', hstr, hki⟩ := exists_straddles hs hj hjr htj hvj (show left ≤ i by omega)
        (by omega) hti hgt
      have hkv : (stabs k').nValue = addr + 1#32 := by
        have hbehind := hstr.behind
        have hki' : (stabs k').nValue ≤ addr + 1#32 := by
          rw [← hya, ← hvi]
          rcases eq_or_lt_of_le hki with heq | hlt
          · rw [heq]
            exact BitVec.le_refl _
          · exact hs k' i (hstr.ge.trans hstr.lt.le) hlt (by omega) hstr.second hti
        apply BitVec.eq_of_toNat_eq
        rw [BitVec.lt_def] at hbehind
        rw [BitVec.le_def, hsucc] at hki'
        omega
      have hcut := (hy.seen j' k' hstr).mpr (hst.next j' k' hstr hkv)
      omega
    obtain ⟨out, hout, hb⟩ := brackets_of_hit hs hj hjr htj hvj hmax hy hno
    rwa [h.eq_of_brackets hs hb] at hout
  · push Not at hhit
    have hfinds := (finds_of_no_hit hle hs hhit).mpr fun _ => ⟨q, h.below⟩
    obtain ⟨out, hout⟩ := exists_ends stabs type ⟨left, right, addr, left, right, false⟩
    rwa [h.eq_of_brackets hs ((finds_iff hout).mp hfinds)] at hout

end

theorem steady_of_ne {stabs : ℤ → Stab} {type left right : ℤ} {addr : Word}
    (h : ∀ i, left ≤ i → i ≤ right → IsType stabs type i → (stabs i).nValue ≠ addr) :
    Steady stabs type left right addr := by
  refine ⟨fun i hi hir ht hv => absurd hv (h i hi hir ht), fun j k hs _ => ?_⟩
  have hlt := hs.lt
  have hle := hs.le
  exact absurd hs.value (h j hs.ge (by omega) hs.first)

/-! ## A well-formed table -/

/-- The files and the functions are ordered by address, and within each function the lines. -/
structure WellFormed (stabs : ℤ → Stab) (n : ℤ) : Prop where
  files : Sorted stabs nSo 0 (n - 1)
  functions : Sorted stabs nFun 0 (n - 1)
  lines : ∀ f g, 0 ≤ f → g < n → IsType stabs nFun f →
    (∀ i, f < i → i ≤ g → ¬ IsType stabs nFun i ∧ ¬ IsType stabs nSo i) → Sorted stabs nSline f g

/-- The address is in the function from the stab at `f` up to `g`, in the file from `a` up to
`b`. -/
structure InFunction (stabs : ℤ → Stab) (n : ℤ) (addr : Word) (a b f g : ℤ) : Prop where
  file : Region stabs nSo 0 (n - 1) addr a b
  function : Region stabs nFun a b addr f g

/-- The last line of the function from `f` up to `g` that does not begin behind the offset. -/
structure LastLine (stabs : ℤ → Stab) (f g : ℤ) (off : Word) (q : ℤ) : Prop where
  ge : f ≤ q
  le : q ≤ g
  isType : IsType stabs nSline q
  value : (stabs q).nValue ≤ off
  last : ∀ i, q < i → i ≤ g → IsType stabs nSline i → off < (stabs i).nValue

section

variable {stabs : ℤ → Stab} {n a b f g q : ℤ} {addr off : Word}

theorem InFunction.bounds (h : InFunction stabs n addr a b f g) :
    0 ≤ a ∧ a < f ∧ f ≤ g ∧ g ≤ b ∧ b < n := by
  have h₁ := h.file.ge
  have h₂ := h.function.ge
  have h₃ := h.function.le
  have h₄ := h.function.last
  have h₅ := h.file.last
  have hne : a ≠ f := by
    intro heq
    have ht := h.file.isType
    rw [heq] at ht
    exact absurd (ht.unique h.function.isType) (by decide)
  omega

theorem InFunction.sorted_lines (h : InFunction stabs n addr a b f g) (hw : WellFormed stabs n) :
    Sorted stabs nSline f g := by
  obtain ⟨ha, haf, -, hgb, hbn⟩ := h.bounds
  refine hw.lines f g (by omega) (by omega) h.function.isType fun i hi hig => ⟨?_, ?_⟩
  · exact h.function.inside i hi hig
  · exact h.file.inside i (by omega) (by omega)

/-- The region of the line. -/
theorem LastLine.region (h : LastLine stabs f g off q) :
    ∃ e, Region stabs nSline f g off q e := by
  by_cases hex : ∃ i, q + 1 ≤ i ∧ i ≤ g ∧ IsType stabs nSline i
  · obtain ⟨k, hk, hkg, htk⟩ := hex
    obtain ⟨i, hi, ⟨hig, hti⟩, hfirst⟩ := exists_first_index
      (P := fun i => i ≤ g ∧ IsType stabs nSline i) ⟨k, hk, hkg, htk⟩
    refine ⟨i - 1, h.ge, h.isType, h.value, by omega, by omega, fun j hj hji ht => ?_, Or.inr ?_⟩
    · exact hfirst j (by omega) (by omega) ⟨by omega, ht⟩
    · rw [sub_add_cancel]
      exact ⟨hti, h.last i (by omega) hig hti⟩
  · refine ⟨g, h.ge, h.isType, h.value, h.le, le_rfl, fun j hj hjg ht => ?_, Or.inl rfl⟩
    exact hex ⟨j, by omega, hjg, ht⟩

theorem LastLine.unique {q' : ℤ} (h : LastLine stabs f g off q) (h' : LastLine stabs f g off q') :
    q = q' := by
  rcases lt_trichotomy q q' with hlt | heq | hlt
  · exact absurd h'.value (BitVec.not_le.mpr (h.last q' hlt h'.le h'.isType))
  · exact heq
  · exact absurd h.value (BitVec.not_le.mpr (h'.last q hlt h.le h.isType))

end

/-! ## The line that is reported -/

/-- There is an `N_SOL` stab from `f` up to `g`. -/
def HasSol (stabs : ℤ → Stab) (f g : ℤ) : Prop := ∃ i, f ≤ i ∧ i ≤ g ∧ IsType stabs nSol i

/-- `debuginfo_eip` returns `out`, with enough rounds. -/
def Yields (m : Word → BitVec 8) (s : Kernel) (e : ℕ) (linked : UserStabData) (addr : Word)
    (out : ℤ × Eipdebuginfo) : Prop :=
  ∃ n, ∀ fuel, n ≤ fuel → ∃ (reads : List ℤ) (s' : Kernel),
    debuginfoEip fuel m s e linked addr = .ok (some (out, reads), s')

/-- If `debuginfo_eip` returns 0, then `eip_line` is the line of the address in the function from
the stab at `f` up to `g`. -/
def ReportsLine (m : Word → BitVec 8) (s : Kernel) (e : ℕ) (linked : UserStabData) (addr : Word)
    (d : UserStabData) (f g : ℤ) : Prop :=
  ∀ info, Yields m s e linked addr (0, info) →
    ∃ q, LastLine (stabsOf (d.stab m)) f g (addr - info.eipFnAddr) q ∧
      info.eipLine = (d.stab m q).nDesc.toNat

section

variable {m : Word → BitVec 8} {s s' : Kernel} {e : ℕ} {linked d : UserStabData} {addr : Word}
  {a b f g q : ℤ} {out out' : ℤ × Eipdebuginfo}

theorem yields_of_reads (hfind : findStabs s e m linked addr = .ok (some d, s'))
    (h : ∀ᶠ fuel in atTop, Reads (fun _ => True) (lookUp fuel m d addr) out) :
    Yields m s e linked addr out := by
  obtain ⟨n, hn⟩ := eventually_atTop.mp h
  refine ⟨n, fun fuel hfuel => ?_⟩
  obtain ⟨reads, hrun, -⟩ := hn fuel hfuel
  refine ⟨reads, s', ?_⟩
  unfold debuginfoEip
  rw [hfind]
  exact congrArg (fun o => Except.ok (o, s')) hrun

theorem Yields.unique (h : Yields m s e linked addr out) (h' : Yields m s e linked addr out') :
    out = out' := by
  obtain ⟨n, hn⟩ := h
  obtain ⟨n', hn'⟩ := h'
  obtain ⟨reads, t, hrun⟩ := hn (max n n') (le_max_left _ _)
  obtain ⟨reads', t', hrun'⟩ := hn' (max n n') (le_max_right _ _)
  rw [hrun] at hrun'
  obtain ⟨heq, -⟩ := Prod.mk.inj (Except.ok.inj hrun')
  exact (Prod.mk.inj (Option.some.inj heq)).1

/-- The file at stab 0 is taken for none. -/
theorem lookUp_of_first (hstr : d.HasStrings m)
    (hso : Ends (stabsOf (d.stab m)) nSo ⟨0, d.count - 1, addr, 0, d.count - 1, false⟩ (0, b)) :
    ∀ᶠ fuel in atTop, Reads (fun _ => True) (lookUp fuel m d addr) (-1, .init addr) := by
  have hrun := search_eventually (S := fun _ => True) (fun _ _ _ => trivial) hso
  filter_upwards [hrun] with fuel hfuel
  unfold lookUp
  dsimp only
  rw [if_neg hstr.guard]
  exact hfuel.bind (.pure _)

/-- **What is reported for an address in a function**, if the searches find their parts.  The
search for the line may end anywhere if there is an `N_SOL` stab. -/
theorem lookUp_line (hstr : d.HasStrings m)
    (hso : Ends (stabsOf (d.stab m)) nSo ⟨0, d.count - 1, addr, 0, d.count - 1, false⟩ (a, b))
    (ha : a ≠ 0) (hfun : Ends (stabsOf (d.stab m)) nFun ⟨a, b, addr, a, b, false⟩ (f, g))
    (hfg : f ≤ g) {e' : ℤ} (hqe : HasSol (stabsOf (d.stab m)) f g ∨ q ≤ e')
    (hline : Ends (stabsOf (d.stab m)) nSline
      ⟨f, g, addr - (d.stab m f).nValue, f, g, false⟩ (q, e')) :
    ∃ info : Eipdebuginfo, info.eipFnAddr = (d.stab m f).nValue ∧
      (HasSol (stabsOf (d.stab m)) f g → info.eipLine = (d.stab m f).nDesc.toNat) ∧
      (¬ HasSol (stabsOf (d.stab m)) f g → info.eipLine = (d.stab m q).nDesc.toNat) ∧
      ∀ᶠ fuel in atTop, Reads (fun _ => True) (lookUp fuel m d addr) (0, info) := by
  obtain ⟨found, hfound, hsol, hno⟩ := findLine_eventually (S := fun _ => True) a b
    (d.stab m f).nValue hfg (fun _ _ _ => trivial) hline
  have hq : ¬ HasSol (stabsOf (d.stab m)) f g → found = some q := fun hex => by
    rw [hno hex, if_neg (not_lt.mpr (hqe.resolve_left hex))]
  obtain ⟨l, rfl⟩ : ∃ l, found = some l := by
    by_cases hex : HasSol (stabsOf (d.stab m)) f g
    · exact ⟨f, hsol hex⟩
    · exact ⟨q, hq hex⟩
  have hname := text_inside hstr.1 (d.stab m f) (show Text.Inside d .unknown from trivial)
  obtain ⟨len, hlen⟩ := namelen_eventually hstr hname
  obtain ⟨t, narg, -, hfill⟩ := reads_fillLine (m := m) (S := fun _ => True)
    { Eipdebuginfo.init addr with
      eipFnName := d.text (d.stab m f) .unknown
      eipFnAddr := (d.stab m f).nValue
      eipFnNamelen := len }
    a f g hstr.1 trivial (show (fun _ => True) l from trivial) (fun _ _ _ => trivial)
    fun _ _ _ => trivial
  have hrun := search_eventually (S := fun _ => True) (fun _ _ _ => trivial) hso
  have hrun' := search_eventually (S := fun _ => True) (fun _ _ _ => trivial) hfun
  refine ⟨{ eipFile := t
            eipLine := (d.stab m l).nDesc.toNat
            eipFnName := d.text (d.stab m f) .unknown
            eipFnNamelen := len
            eipFnAddr := (d.stab m f).nValue
            eipFnNarg := narg }, rfl, fun hex => ?_, fun hex => ?_, ?_⟩
  · rw [Option.some.inj (hsol hex)]
  · rw [Option.some.inj (hq hex)]
  · filter_upwards [hrun, hrun', hlen, hfound] with fuel hfuel hfuel' hlen hfound
    unfold lookUp
    dsimp only
    rw [if_neg hstr.guard]
    refine hfuel.bind ?_
    dsimp only
    rw [if_neg ha]
    refine hfuel'.bind ?_
    have hfind : Reads (fun _ => True) (findFun m d addr (.init addr) a b f g)
        ({ Eipdebuginfo.init addr with
          eipFnName := d.text (d.stab m f) .unknown
          eipFnAddr := (d.stab m f).nValue }, addr - (d.stab m f).nValue, f, g) := by
      unfold findFun
      rw [if_pos hfg]
      exact Reads.bind (.read _ trivial) (.pure _)
    exact hfind.bind (Reads.bind (.lift hlen) (hfound.bind (hfill.bind (.pure _))))

/-- No search that `debuginfo_eip` makes is led astray.  It makes none if there is no string
table, only the first one if the file is that of stab 0, and not the last one if there is an
`N_SOL` stab in the function. -/
structure Guided (m : Word → BitVec 8) (d : UserStabData) (addr : Word) (a b f g : ℤ) : Prop where
  file : d.HasStrings m → Steady (stabsOf (d.stab m)) nSo 0 (d.count - 1) addr
  function : d.HasStrings m → a ≠ 0 → Steady (stabsOf (d.stab m)) nFun a b addr
  line : d.HasStrings m → a ≠ 0 → ¬ HasSol (stabsOf (d.stab m)) f g →
    Steady (stabsOf (d.stab m)) nSline f g (addr - (d.stab m f).nValue)

/-- **When `debuginfo_eip` reports the line**, if no exact hit leads a search astray that it
makes. -/
theorem debuginfoEip_line_iff (hfind : findStabs s e m linked addr = .ok (some d, s'))
    (hw : WellFormed (stabsOf (d.stab m)) d.count)
    (hin : InFunction (stabsOf (d.stab m)) d.count addr a b f g)
    (hq : LastLine (stabsOf (d.stab m)) f g (addr - (d.stab m f).nValue) q)
    (hg : Guided m d addr a b f g) :
    ReportsLine m s e linked addr d f g ↔
      ¬ d.HasStrings m ∨ a = 0 ∨ ¬ HasSol (stabsOf (d.stab m)) f g ∨
        (d.stab m f).nDesc = (d.stab m q).nDesc := by
  by_cases hstr : d.HasStrings m
  swap
  · refine ⟨fun _ => Or.inl hstr, fun _ info hinfo => ?_⟩
    have hret := yields_of_reads hfind (Eventually.of_forall fun fuel =>
      lookUp_of_not_hasStrings (S := fun _ => True) hstr fuel addr)
    have hfail : (0 : ℤ) = -1 := congrArg Prod.fst (hinfo.unique hret)
    exact absurd hfail (by decide)
  obtain ⟨ha, -, hfg, hgb, hbn⟩ := hin.bounds
  have hso := hin.file.ends hw.files (hg.file hstr)
  by_cases hzero : a = 0
  · refine ⟨fun _ => Or.inr (Or.inl hzero), fun _ info hinfo => ?_⟩
    rw [hzero] at hso
    have hret := yields_of_reads hfind (lookUp_of_first hstr hso)
    have hfail : (0 : ℤ) = -1 := congrArg Prod.fst (hinfo.unique hret)
    exact absurd hfail (by decide)
  have hfn := hin.function.ends (hw.functions.sub ha (by omega)) (hg.function hstr hzero)
  by_cases hex : HasSol (stabsOf (d.stab m)) f g
  · -- the line is that of the function
    obtain ⟨⟨q', e'⟩, hln⟩ := exists_ends (stabsOf (d.stab m)) nSline
      ⟨f, g, addr - (d.stab m f).nValue, f, g, false⟩
    obtain ⟨info, haddr, hsol, -, hrun⟩ := lookUp_line hstr hso hzero hfn hfg (Or.inl hex) hln
    have hyield := yields_of_reads hfind hrun
    constructor
    · intro h
      obtain ⟨q', hq', hdesc⟩ := h info hyield
      rw [haddr] at hq'
      obtain rfl := hq.unique hq'
      rw [hsol hex] at hdesc
      exact Or.inr (Or.inr (Or.inr (BitVec.eq_of_toNat_eq (Int.ofNat.inj hdesc))))
    · intro h info' hinfo
      obtain rfl : info = info' := congrArg Prod.snd (hyield.unique hinfo)
      have hdesc := ((h.resolve_left (not_not_intro hstr)).resolve_left hzero).resolve_left
        (not_not_intro hex)
      exact ⟨q, by rwa [haddr], by rw [hsol hex, hdesc]⟩
  · obtain ⟨e', hreg⟩ := hq.region
    have hln := hreg.ends (hin.sorted_lines hw) (hg.line hstr hzero hex)
    obtain ⟨info, haddr, -, hno, hrun⟩ := lookUp_line hstr hso hzero hfn hfg (Or.inr hreg.le) hln
    have hyield := yields_of_reads hfind hrun
    refine ⟨fun _ => Or.inr (Or.inr (Or.inl hex)), fun _ info' hinfo => ?_⟩
    obtain rfl : info = info' := congrArg Prod.snd (hyield.unique hinfo)
    exact ⟨q, by rwa [haddr], hno hex⟩

end

/-! ### Two functions, the second with an included file -/

/-- The table, and behind it a string table of zeros. -/
def lineWords : List Word :=
  [0, 0, 0,
    0, 0x64#32, 0xF0100000#32,
    0, 0x50024#32, 0xF0100000#32,
    0, 0x70044#32, 0,
    0, 0x80044#32, 4,
    0, 0x140024#32, 0xF0100040#32,
    0, 0x84#32, 0xF0100040#32,
    0, 0x160044#32, 0,
    0, 0x170044#32, 4, 0]

def lineMem (a : Word) : BitVec 8 :=
  byte (lineWords.getD ((a - 0x1000#32).toNat / 4) 0#32) ((a - 0x1000#32).toNat % 4)

def lineData : UserStabData := ⟨0x1000#32, 0x106C#32, 0x106C#32, 0x1070#32⟩

abbrev lineStabs : ℤ → Stab := stabsOf (lineData.stab lineMem)

theorem nSo_lineStabs : ∀ i, 0 ≤ i → i ≤ 8 → IsType lineStabs nSo i → i = 1 := by decide

theorem nFun_lineStabs : ∀ i, 0 ≤ i → i ≤ 8 → IsType lineStabs nFun i → i = 2 ∨ i = 5 := by decide

theorem nSline_lineStabs : ∀ i, 0 ≤ i → i ≤ 8 → IsType lineStabs nSline i →
    i = 3 ∨ i = 4 ∨ i = 7 ∨ i = 8 := by decide

theorem wellFormed_lineStabs : WellFormed lineStabs 9 := by
  refine ⟨fun i j hi hij hj hti htj => ?_, fun i j hi hij hj hti htj => ?_,
    fun f g hf hg _ hno i j hi hij hj hti htj => ?_⟩
  · have h₁ := nSo_lineStabs i hi (by omega) hti
    have h₂ := nSo_lineStabs j (by omega) (by omega) htj
    omega
  · obtain rfl : i = 2 := by
      rcases nFun_lineStabs i hi (by omega) hti with h | h
      · exact h
      · rcases nFun_lineStabs j (by omega) (by omega) htj with h' | h'
        · omega
        · omega
    obtain rfl : j = 5 := (nFun_lineStabs j (by omega) (by omega) htj).resolve_left (by omega)
    decide
  · -- lines 4 and 7 are not in one function, since a function begins at 5
    have hsplit : ¬ (i ≤ 4 ∧ 5 ≤ j) := fun h =>
      (hno 5 (by omega) (by omega)).1 (by decide)
    rcases nSline_lineStabs i (by omega) (by omega) hti with rfl | rfl | rfl | rfl
    all_goals
      rcases nSline_lineStabs j (by omega) (by omega) htj with rfl | rfl | rfl | rfl
      all_goals first | omega | decide

theorem inFunction_first : InFunction lineStabs 9 0xF0100006#32 1 8 2 4 :=
  ⟨⟨by decide, by decide, by decide, by decide, by decide, by decide, Or.inl (by decide)⟩,
    ⟨by decide, by decide, by decide, by decide, by decide, by decide, Or.inr (by decide)⟩⟩

theorem inFunction_second : InFunction lineStabs 9 0xF0100046#32 1 8 5 8 :=
  ⟨⟨by decide, by decide, by decide, by decide, by decide, by decide, Or.inl (by decide)⟩,
    ⟨by decide, by decide, by decide, by decide, by decide, by decide, Or.inl (by decide)⟩⟩

theorem find_lineData {addr : Word} (h : ulim ≤ addr) (s : Kernel) (e : ℕ) :
    findStabs s e lineMem lineData addr = .ok (some lineData, s) := by
  unfold findStabs
  rw [if_pos h]
  rfl

/-- In the first function, the line is reported. -/
theorem debuginfoEip_line_iff_first :
    ReportsLine lineMem Kernel.onePage 0 lineData 0xF0100006#32 lineData 2 4 := by
  refine (debuginfoEip_line_iff (q := 4) (find_lineData (by decide) _ _) wellFormed_lineStabs
    inFunction_first ⟨by decide, by decide, by decide, by decide, fun i hi hi' => by omega⟩
    ⟨fun _ => steady_of_ne (by decide), fun _ _ => steady_of_ne (by decide),
      fun _ _ _ => steady_of_ne (by decide)⟩).mpr ?_
  refine Or.inr (Or.inr (Or.inl ?_))
  rintro ⟨i, hi, hi', ht⟩
  revert i
  decide

/-- **In the second function, the line of the function is reported** instead. -/
theorem not_debuginfoEip_line : ¬ ∀ (m : Word → BitVec 8) (s s' : Kernel) (e : ℕ)
    (linked d : UserStabData) (addr : Word) (a b f g q : ℤ),
    findStabs s e m linked addr = .ok (some d, s') →
      WellFormed (stabsOf (d.stab m)) d.count →
      InFunction (stabsOf (d.stab m)) d.count addr a b f g →
      LastLine (stabsOf (d.stab m)) f g (addr - (d.stab m f).nValue) q →
      ReportsLine m s e linked addr d f g := by
  intro h
  have hfind := find_lineData (show ulim ≤ 0xF0100046#32 by decide) Kernel.onePage 0
  have hline : LastLine lineStabs 5 8 (0xF0100046#32 - (lineData.stab lineMem 5).nValue) 8 :=
    ⟨by decide, by decide, by decide, by decide, fun i hi hi' => by omega⟩
  have hreports := h lineMem Kernel.onePage Kernel.onePage 0 lineData lineData 0xF0100046#32 1 8 5 8 8
    hfind wellFormed_lineStabs inFunction_second hline
  have hso := inFunction_second.file.ends wellFormed_lineStabs.files (steady_of_ne (by decide))
  have hfn := inFunction_second.function.ends
    (wellFormed_lineStabs.functions.sub (by decide) (by decide)) (steady_of_ne (by decide))
  obtain ⟨e', hreg⟩ := hline.region
  have hln := hreg.ends (inFunction_second.sorted_lines wellFormed_lineStabs)
    (steady_of_ne (by decide))
  obtain ⟨info, haddr, hsol, -, hrun⟩ := lookUp_line (m := lineMem) (d := lineData)
    ⟨by decide, by decide⟩ hso (by decide) hfn (by decide) (Or.inr hreg.le) hln
  obtain ⟨q, hq, hdesc⟩ := hreports info (yields_of_reads hfind hrun)
  rw [haddr] at hq
  obtain rfl := hline.unique hq
  rw [hsol ⟨6, by decide, by decide, by decide⟩] at hdesc
  exact absurd hdesc (by decide)

end Kdebug
end PmakeOs
