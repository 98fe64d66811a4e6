import PmakeOs.Console.Cputs
import PmakeOs.Debug.Reads
import PmakeOs.Machine.Bytes
import Mathlib.Order.Filter.AtTopBot.Basic

/-!
# Where `debuginfo_eip` reads

Every search reads inside of its range, and the ranges are the results of earlier searches.
So the function reads inside of the table, as long as no search falls off the left end of it.
Two do:

* the search for the file, if stab 0 is an `N_SO` stab behind the address and the bisection
  finds it.  The region is then `[-1, -1]`, and only `lfile == 0` is tested for;
* by an accident at the last address of all, the search for the line, if the search for the
  file has gone back to stab 1, and the one for the function to stab 0.
-/

namespace PmakeOs
namespace Kdebug

open Lib Filter

/-- The text is the constant, or begins in the string table. -/
def Text.Inside (d : UserStabData) : Text → Prop
  | .unknown => True
  | .mem p => d.stabstr ≤ p ∧ p < d.stabstrEnd

/-- The string table is not empty, and ends with a zero. -/
def UserStabData.HasStrings (d : UserStabData) (m : Word → BitVec 8) : Prop :=
  d.stabstr < d.stabstrEnd ∧ m (d.stabstrEnd - 1#32) = 0#8

theorem UserStabData.HasStrings.guard {d : UserStabData} {m : Word → BitVec 8}
    (h : d.HasStrings m) :
    ¬ (d.stabstrEnd ≤ d.stabstr ∨ m (d.stabstrEnd - 1#32) ≠ 0#8) :=
  not_or.mpr ⟨BitVec.not_le.mpr h.1, not_not.mpr h.2⟩

section

variable {m : Word → BitVec 8} {d : UserStabData} {S : ℤ → Prop} {addr : Word}
  {info : Eipdebuginfo} {lfile rfile lfun rfun lline rline left right type : ℤ} {n : ℕ}
  {out : ℤ × ℤ}

/-! ## The texts -/

theorem text_inside (hlt : d.stabstr < d.stabstrEnd) (stab : StabEntry) {old : Text}
    (h : old.Inside d) : (d.text stab old).Inside d := by
  unfold UserStabData.text
  split
  · rename_i hstrx
    rw [BitVec.lt_def] at hlt hstrx
    have hend := d.stabstrEnd.isLt
    have hlen : (d.stabstrEnd - d.stabstr).toNat = d.stabstrEnd.toNat - d.stabstr.toNat := by
      rw [BitVec.toNat_sub_of_le (BitVec.le_def.mpr hlt.le)]
    have hsum : (d.stabstr + stab.nStrx).toNat = d.stabstr.toNat + stab.nStrx.toNat := by
      rw [BitVec.toNat_add]
      exact Nat.mod_eq_of_lt (by omega)
    refine ⟨?_, ?_⟩
    · rw [BitVec.le_def, hsum]
      omega
    · rw [BitVec.lt_def, hsum]
      omega
  · exact h

/-- `strfind` ends, since there is a zero ahead. -/
theorem strfind_eventually (c : BitVec 8) {p : Word} {k : ℕ}
    (h : m (p + BitVec.ofNat 32 k) = 0#8) :
    ∃ q, ∀ᶠ fuel in atTop, strfind m c fuel p = some q := by
  induction k generalizing p with
  | zero =>
    have hz : m p = 0#8 := by
      rw [← h]
      exact congrArg m (BitVec.add_zero p).symm
    refine ⟨p, eventually_atTop.mpr ⟨1, fun fuel hfuel => ?_⟩⟩
    obtain ⟨fuel, rfl⟩ : ∃ f, fuel = f + 1 := ⟨fuel - 1, by omega⟩
    rw [strfind, if_pos hz]
  | succ k ih =>
    have hnext : m (p + 1#32 + BitVec.ofNat 32 k) = 0#8 := by
      rw [← h]
      congr 1
      rw [BitVec.add_assoc, BitVec.ofNat_add, BitVec.add_comm 1#32]
    obtain ⟨q, hq⟩ := ih hnext
    obtain ⟨n, hn⟩ := eventually_atTop.mp hq
    by_cases hz : m p = 0#8 ∨ m p = c
    · refine ⟨p, eventually_atTop.mpr ⟨1, fun fuel hfuel => ?_⟩⟩
      obtain ⟨fuel, rfl⟩ : ∃ f, fuel = f + 1 := ⟨fuel - 1, by omega⟩
      rw [strfind]
      rcases hz with hz | hz
      · rw [if_pos hz]
      · rw [if_pos hz, ite_self]
    · rw [not_or] at hz
      refine ⟨q, eventually_atTop.mpr ⟨n + 1, fun fuel hfuel => ?_⟩⟩
      obtain ⟨fuel, rfl⟩ : ∃ f, fuel = f + 1 := ⟨fuel - 1, by omega⟩
      rw [strfind, if_neg hz.1, if_neg hz.2]
      exact hn fuel (by omega)

theorem namelen_eventually (hstr : d.HasStrings m) {name : Text} (h : name.Inside d) :
    ∃ len, ∀ᶠ fuel in atTop, namelen m fuel name = some len := by
  cases name with
  | unknown => exact ⟨9, Eventually.of_forall fun fuel => rfl⟩
  | mem p =>
    obtain ⟨-, hlt⟩ := h
    have hzero : m (p + BitVec.ofNat 32 (d.stabstrEnd - 1#32 - p).toNat) = 0#8 := by
      rw [BitVec.ofNat_toNat, BitVec.setWidth_eq, BitVec.add_comm, BitVec.sub_add_cancel]
      exact hstr.2
    obtain ⟨q, hq⟩ := strfind_eventually 0x3A#8 hzero
    refine ⟨(q - p).toInt, ?_⟩
    filter_upwards [hq] with fuel hfuel
    rw [namelen, hfuel]
    rfl

/-! ## The parts of the function -/

theorem search_eventually {type : ℤ} (hS : ∀ i, left ≤ i → i ≤ right → S i)
    (h : Ends (stabsOf (d.stab m)) type ⟨left, right, addr, left, right, false⟩ out) :
    ∀ᶠ fuel in atTop, Reads S (stabBinsearchR (d.stab m) type fuel left right addr) out :=
  eventually_atTop.mpr (reads_stabBinsearchR hS h)

variable (lfile rfile) in
/-- The line search after the search for an `N_SOL` stab. -/
theorem findLine_eventually (fnAddr : Word) (hle : lline ≤ rline)
    (hS : ∀ i, lline ≤ i → i ≤ rline → S i)
    (h : Ends (stabsOf (d.stab m)) nSline ⟨lline, rline, addr, lline, rline, false⟩ out) :
    ∃ found, (∀ᶠ fuel in atTop, Reads S (findLine fuel m d addr fnAddr lfile rfile lline rline)
        found) ∧
      ((∃ i, lline ≤ i ∧ i ≤ rline ∧ IsType (stabsOf (d.stab m)) nSol i) → found = some lline) ∧
      ((¬ ∃ i, lline ≤ i ∧ i ≤ rline ∧ IsType (stabsOf (d.stab m)) nSol i) →
        found = if out.1 > out.2 then none else some out.1) := by
  obtain ⟨sol, hsol⟩ := exists_ends (stabsOf (d.stab m)) nSol
    ⟨lline, rline, (if lline = lfile ∧ rline = rfile then 0#32 else addr) + fnAddr, lline, rline,
      false⟩
  have hrun := search_eventually (S := S) hS hsol
  have hline := search_eventually (S := S) hS h
  cases hsol.outcome with
  | missing hno =>
    refine ⟨if out.1 > out.2 then none else some out.1, ?_, ?_, fun _ => rfl⟩
    · filter_upwards [hrun, hline] with fuel hfuel hfuel'
      refine Reads.bind hfuel ?_
      dsimp only
      rw [if_pos (by omega)]
      refine Reads.bind hfuel' ?_
      split
      · exact .pure _
      · exact .pure _
    · rintro ⟨i, hi, hi', ht⟩
      exact absurd ht (hno i hi hi')
  | fallsOff hfalls =>
    refine ⟨some lline, ?_, fun _ => rfl, fun hno => ?_⟩
    · filter_upwards [hrun] with fuel hfuel
      refine Reads.bind hfuel ?_
      dsimp only
      rw [if_neg (by omega)]
      exact .pure _
    · exact absurd ⟨lline, le_rfl, hle, hfalls.isType.1⟩ hno
  | found hex _ _ hle' _ =>
    refine ⟨some lline, ?_, fun _ => rfl, fun hno => absurd hex hno⟩
    filter_upwards [hrun] with fuel hfuel
    refine Reads.bind hfuel ?_
    dsimp only
    rw [if_neg (by omega)]
    exact .pure _

variable (lline) in
theorem reads_fileBack (hS : ∀ i, lline - n < i → i ≤ lline → S i) :
    ∃ l, Reads S (fileBack m d n lline) l ∧ lline - n ≤ l ∧ l ≤ lline := by
  induction n generalizing lline with
  | zero => exact ⟨lline, .pure lline, by simp, le_rfl⟩
  | succ n ih =>
    have hl : S lline := hS lline (by push_cast; omega) le_rfl
    by_cases h : ((d.stab m lline).nType.toNat : ℤ) ≠ nSol ∧
        (((d.stab m lline).nType.toNat : ℤ) ≠ nSo ∨ (d.stab m lline).nValue = 0#32)
    · obtain ⟨l, hl', hge, hle⟩ := @ih (lline - 1) fun i hi hi' =>
        hS i (by push_cast; omega) (by omega)
      refine ⟨l, Reads.bind (.read _ hl) ?_, by push_cast; omega, by omega⟩
      rw [if_pos h]
      exact hl'
    · refine ⟨lline, Reads.bind (.read _ hl) ?_, by push_cast; omega, le_rfl⟩
      rw [if_neg h]
      exact .pure _

variable (info) in
theorem reads_findFile (hlt : d.stabstr < d.stabstrEnd) (h : info.eipFile.Inside d)
    (hS : ∀ i, lfile ≤ i → i ≤ lline → S i) :
    ∃ f : Text, f.Inside d ∧
      Reads S (findFile m d info lfile lline) { info with eipFile := f } := by
  obtain ⟨l, hl, hge, hle⟩ := reads_fileBack (m := m) (d := d) (S := S)
    (n := (lline + 1 - lfile).toNat) lline fun i hi hi' => hS i (by omega) hi'
  by_cases hfound : lfile ≤ l
  · refine ⟨d.text (d.stab m l) info.eipFile, text_inside hlt _ h, hl.bind ?_⟩
    rw [if_pos hfound]
    exact Reads.bind (.read _ (hS l hfound hle)) (.pure _)
  · refine ⟨info.eipFile, h, hl.bind ?_⟩
    rw [if_neg hfound]
    exact .pure _

theorem reads_countArgs (narg : ℤ) (hS : ∀ i, lline ≤ i → i < lline + n → S i) :
    ∃ a, Reads S (countArgs m d n lline narg) a := by
  induction n generalizing lline narg with
  | zero => exact ⟨narg, .pure narg⟩
  | succ n ih =>
    have hl : S lline := hS lline le_rfl (by push_cast; omega)
    by_cases h : ((d.stab m lline).nType.toNat : ℤ) = nPsym
    · obtain ⟨a, ha⟩ := @ih (lline + 1) (narg + 1) fun i hi hi' =>
        hS i (by omega) (by push_cast; omega)
      refine ⟨a, Reads.bind (.read _ hl) ?_⟩
      rw [if_pos h]
      exact ha
    · refine ⟨narg, Reads.bind (.read _ hl) ?_⟩
      rw [if_neg h]
      exact .pure _

variable (info lfile lfun rfun) in
/-- What is filled in for the line. -/
theorem reads_fillLine (hlt : d.stabstr < d.stabstrEnd) (h : info.eipFile.Inside d) (hl : S lline)
    (hS : ∀ i, lfile ≤ i → i ≤ lline → S i) (hargs : ∀ i, lfun < i → i < rfun → S i) :
    ∃ (f : Text) (a : ℤ), f.Inside d ∧ Reads S (fillLine m d info lfile lfun rfun lline)
      { info with
        eipLine := (d.stab m lline).nDesc.toNat
        eipFile := f
        eipFnNarg := a } := by
  obtain ⟨f, hf, hfile⟩ := reads_findFile (m := m)
    { info with eipLine := (d.stab m lline).nDesc.toNat } hlt h hS
  obtain ⟨a, ha⟩ : ∃ a, Reads S (funArgs m d lfun rfun) a := by
    unfold funArgs
    by_cases hfun : lfun < rfun
    · rw [if_pos hfun]
      exact reads_countArgs 0 fun i hi hi' => hargs i (by omega) (by omega)
    · rw [if_neg hfun]
      exact ⟨0, .pure 0⟩
  exact ⟨f, a, hf, Reads.bind (.read _ hl) (hfile.bind (ha.bind (.pure _)))⟩

/-! ## The function -/

/-- Both texts are the constant or begin in the string table. -/
def Eipdebuginfo.Inside (d : UserStabData) (info : Eipdebuginfo) : Prop :=
  info.eipFile.Inside d ∧ info.eipFnName.Inside d

theorem lookUp_of_not_hasStrings (h : ¬ d.HasStrings m) (fuel : ℕ) (addr : Word) :
    Reads S (lookUp fuel m d addr) (-1, .init addr) := by
  unfold lookUp
  dsimp only
  rw [if_pos]
  · exact .pure _
  · rw [UserStabData.HasStrings, not_and_or, BitVec.not_lt] at h
    exact h

theorem IsType.unique {stabs : ℤ → Stab} {type' i : ℤ} (h : IsType stabs type i)
    (h' : IsType stabs type' i) : type = type' :=
  Eq.trans (Eq.symm h) h'

theorem FallsOff.ends {stabs : ℤ → Stab} (h : FallsOff stabs type left addr right) :
    Ends stabs type ⟨left, right, addr, left, right, false⟩ (left - 1, left - 1) := by
  obtain ⟨out, hout⟩ := exists_ends stabs type ⟨left, right, addr, left, right, false⟩
  cases hout.outcome with
  | missing hno => exact absurd h.isType.1 (hno left le_rfl h.isType.2)
  | fallsOff => exact hout
  | found _ hnot => exact absurd h hnot

end

/-! ### A table of one stab -/

end Kdebug
end PmakeOs
