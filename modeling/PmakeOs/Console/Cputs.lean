import PmakeOs.Console.Cprintf
import PmakeOs.Lib.Offset
import PmakeOs.Trap.UserMemory
import PmakeOs.Sched.Entries
import Mathlib.Data.Nat.Find

/-!
# What `sys_cputs` reads

`sys_cputs` has the range `[s, s + len)` checked and then prints it with
`cprintf("%.*s", len, s)`.  The loop over the string reads a byte before it tests the
precision, so it reads the byte behind the range unless it meets a zero before; a length
from `2 ^ 31` on is a negative precision, which does not stop it at all; and a null pointer
is replaced by a constant of the kernel.  The reads stay inside the range exactly when
the pointer is not null and there is a zero in the range.
-/

namespace PmakeOs

open Lib

namespace Printfmt

section

variable {σ : Type} {put : ℤ → σ → σ} {m : Word → Option (BitVec 8)} {args : ℕ → Word}

/-! ## The reads of the loop over a string -/

theorem extends_peek (p : Loc) : Extends Run.reads (peek m p : Fmt σ (BitVec 8)) := by
  refine .own fun r => ?_
  split
  · exact List.suffix_cons p r.reads
  · exact List.suffix_cons p r.reads

theorem extends_putTimes (ch : ℤ) (n : ℕ) : Extends Run.reads (putTimes put ch n) := by
  induction n with
  | zero => exact .pure ()
  | succ n ih => exact .bind (.put ch) fun _ => ih

theorem extends_putOne (altflag : Bool) (ch : BitVec 8) :
    Extends Run.reads (putOne put altflag ch) :=
  .ite (.put _) (.put _)

theorem extends_strLoop (altflag : Bool) (fuel : ℕ) (p : Loc) (precision width : Word) :
    Extends Run.reads (strLoop put m altflag fuel p precision width) := by
  induction fuel generalizing p precision width with
  | zero =>
    rw [strLoop]
    exact .own fun r => List.suffix_rfl
  | succ fuel ih =>
    rw [strLoop]
    refine .bind (extends_peek p) fun ch => .ite (.pure width) (.ite ?_ (.ite ?_ (.pure width)))
    · exact .bind (extends_putOne altflag ch) fun _ => ih _ _ _
    · exact .bind (extends_putOne altflag ch) fun _ => ih _ _ _

/-- The loop reads at least one byte. -/
theorem mem_reads_strLoop (altflag : Bool) {n : ℕ} (hn : 0 < n) (p : Loc) (precision width : Word)
    (r : Run) (s : σ) : p ∈ (last (strLoop put m altflag n p precision width (r, s))).1.reads := by
  obtain ⟨fuel, rfl⟩ := Nat.exists_eq_add_of_lt hn
  rw [Nat.zero_add, strLoop, bind_apply]
  unfold peek Out.own
  cases hread : p.read m with
  | none => exact List.mem_cons_self
  | some ch =>
    dsimp only
    have hrest : Extends Run.reads (if ch = 0#8 then (pure width : Fmt σ Word)
        else if precision.toInt < 0 then putOne put altflag ch >>= fun _ =>
          strLoop put m altflag fuel p.next precision (width - 1#32)
        else if 0 ≤ (precision - 1#32).toInt then putOne put altflag ch >>= fun _ =>
          strLoop put m altflag fuel p.next (precision - 1#32) (width - 1#32)
        else pure width) := by
      refine .ite (.pure width) (.ite ?_ (.ite ?_ (.pure width)))
      · exact .bind (extends_putOne altflag ch) fun _ => extends_strLoop ..
      · exact .bind (extends_putOne altflag ch) fun _ => extends_strLoop ..
    exact (hrest.run ({ r with reads := p :: r.reads }, s)).subset List.mem_cons_self

/-- The `n` bytes from `a` on, as a list of reads, latest first. -/
def bytesFrom (a : Word) (n : ℕ) : List Loc :=
  ((List.range n).map fun i => Loc.mem (a + BitVec.ofNat 32 i)).reverse

theorem bytesFrom_succ (a : Word) (n : ℕ) (l : List Loc) :
    bytesFrom (a + 1#32) n ++ Loc.mem a :: l = bytesFrom a (n + 1) ++ l := by
  unfold bytesFrom
  rw [List.range_succ_eq_map, List.map_cons, List.map_map, List.reverse_cons, List.append_assoc,
    List.singleton_append, show BitVec.ofNat 32 0 = 0#32 from rfl, BitVec.add_zero]
  congr 3
  funext i
  show Loc.mem (a + 1#32 + BitVec.ofNat 32 i) = Loc.mem (a + BitVec.ofNat 32 (i + 1))
  rw [BitVec.ofNat_add, BitVec.add_assoc, BitVec.add_comm 1#32]

variable (put) in
/-- **As long as there is no zero and the precision allows it, the loop goes on.** -/
theorem strLoop_rounds (altflag : Bool) (fuel n : ℕ) {a precision : Word} (width : Word) (r : Run)
    (s : σ) (hb : ∀ i < n, ∃ b, m (a + BitVec.ofNat 32 i) = some b ∧ b ≠ 0#8)
    (hp : precision.toInt < 0 ∨ n ≤ precision.toInt) : ∃ precision' width' s',
      strLoop put m altflag (fuel + n) (.mem a) precision width (r, s) =
        strLoop put m altflag fuel (.mem (a + BitVec.ofNat 32 n)) precision' width'
          ({ r with reads := bytesFrom a n ++ r.reads }, s') := by
  induction n generalizing a precision width r s with
  | zero =>
    refine ⟨precision, width, s, ?_⟩
    rw [show BitVec.ofNat 32 0 = 0#32 from rfl, BitVec.add_zero]
    rfl
  | succ n ih =>
    obtain ⟨b, hread, hne⟩ := hb 0 (Nat.succ_pos n)
    rw [show BitVec.ofNat 32 0 = 0#32 from rfl, BitVec.add_zero] at hread
    have hb' : ∀ i < n, ∃ b, m (a + 1#32 + BitVec.ofNat 32 i) = some b ∧ b ≠ 0#8 := by
      intro i hi
      obtain ⟨b, hbi, hbne⟩ := hb (i + 1) (by omega)
      rw [BitVec.ofNat_add, BitVec.add_comm (BitVec.ofNat 32 i), ← BitVec.add_assoc] at hbi
      exact ⟨b, hbi, hbne⟩
    have hput : ∃ s₁, putOne put altflag b ({ r with reads := .mem a :: r.reads }, s) =
        .ok () ({ r with reads := .mem a :: r.reads }, s₁) := by
      unfold putOne
      split <;> exact ⟨_, rfl⟩
    obtain ⟨s₁, hput⟩ := hput
    have hstep : ∃ precision₁ : Word, (precision₁.toInt < 0 ∨ (n : ℤ) ≤ precision₁.toInt) ∧
        strLoop put m altflag (fuel + (n + 1)) (.mem a) precision width (r, s) =
          strLoop put m altflag (fuel + n) (.mem (a + 1#32)) precision₁ (width - 1#32)
            ({ r with reads := .mem a :: r.reads }, s₁) := by
      rw [← Nat.add_assoc, strLoop, bind_apply, peek_some (p := .mem a) hread]
      dsimp only
      rw [if_neg hne]
      rcases hp with hneg | hle
      · refine ⟨precision, Or.inl hneg, ?_⟩
        rw [if_pos hneg, bind_apply, hput]
        rfl
      · have hlt := precision.toInt_lt
        have hsub : (precision - 1#32).toInt = precision.toInt - 1 := by
          rw [BitVec.toInt_sub, Int.bmod_eq_of_le (by simp; omega) (by simp; omega)]
          rfl
        refine ⟨precision - 1#32, Or.inr (by rw [hsub]; omega), ?_⟩
        rw [if_neg (by omega), if_pos (by rw [hsub]; omega), bind_apply, hput]
        rfl
    obtain ⟨precision₁, hp₁, hstep⟩ := hstep
    obtain ⟨precision', width', s', hrest⟩ :=
      ih (width - 1#32) { r with reads := .mem a :: r.reads } s₁ hb' hp₁
    refine ⟨precision', width', s', ?_⟩
    rw [hstep, hrest, bytesFrom_succ, BitVec.ofNat_add, BitVec.add_comm (BitVec.ofNat 32 n),
      BitVec.add_assoc]

theorem bytesFrom_snoc (a : Word) (n : ℕ) :
    Loc.mem (a + BitVec.ofNat 32 n) :: bytesFrom a n = bytesFrom a (n + 1) := by
  rw [bytesFrom, bytesFrom, List.range_succ, List.map_append, List.map_singleton,
    List.reverse_append]
  rfl

/-- The loop returns at a zero. -/
theorem strLoop_zero (altflag : Bool) (fuel : ℕ) {p : Loc} (precision width : Word) (r : Run)
    (s : σ) (h : p.read m = some 0#8) :
    strLoop put m altflag (fuel + 1) p precision width (r, s) =
      .ok width ({ r with reads := p :: r.reads }, s) := by
  rw [strLoop, bind_apply, peek_some h]
  dsimp only
  rw [if_pos rfl]
  rfl

variable (put) in
theorem putTimes_ok (ch : ℤ) (n : ℕ) (r : Run) (s : σ) :
    ∃ s', putTimes put ch n (r, s) = .ok () (r, s') := by
  induction n generalizing s with
  | zero => exact ⟨s, rfl⟩
  | succ n ih =>
    rw [putTimes, bind_apply]
    exact ih (put ch s)

/-! ## The format of `sys_cputs` -/

/-- The flags of `%.*s`: no width, and the first argument for a precision. -/
def cputsFlags (precision : Word) : Flags := ⟨chr ' ', 0#32, precision, 0, false⟩

theorem reswitch_cputs (args : ℕ → Word) :
    reswitch args (str ".*s") .default 0 = ⟨cputsFlags (args 0), chr 's', [], 1⟩ := by
  have hstr : str ".*s" = [chr '.', chr '*', chr 's'] := by decide
  have hdot : ¬ (chr '1' ≤ chr '.' ∧ chr '.' ≤ chr '9') := by decide
  have hstar : ¬ (chr '1' ≤ chr '*' ∧ chr '*' ≤ chr '9') := by decide
  have hs : ¬ (chr '1' ≤ chr 's' ∧ chr 's' ≤ chr '9') := by decide
  rw [hstr, reswitch, if_neg (by decide), if_neg (by decide), dif_neg hdot,
    if_neg (by decide), if_pos rfl, reswitch, if_neg (by decide), if_neg (by decide),
    dif_neg hstar, if_pos rfl, reswitch, if_neg (by decide), if_neg (by decide),
    dif_neg hs, if_neg (by decide), if_neg (by decide), if_neg (by decide),
    if_neg (by decide)]
  rfl

/-- The pointer that `%s` prints from. -/
def stringAt (w : Word) : Loc := if w = 0#32 then .lit (str "(null)") 0 else .mem w

/-- `vprintfmt` with `"%.*s"` is the loop over the string, and what is left of a width that
has become positive. -/
theorem vprintfmt_cputs (r : Run) (s : σ) (hr : r.ap = 0) :
    vprintfmt put m args (str "%.*s") (r, s) =
      (strLoop put m false (2 ^ 32) (stringAt (args 1)) (args 0) 0#32 >>= fun width =>
        putTimes put (chr ' ').toNat width.toInt.toNat) ({ r with ap := 2 }, s) := by
  have hstr : str "%.*s" = chr '%' :: str ".*s" := by decide
  rw [hstr, vprintfmt_directive, hr, reswitch_cputs]
  rw [convert_string put m args rfl]
  dsimp only
  rw [bind_apply, bind_apply]
  have hva : vaArg args ({ r with ap := 1 }, s) = .ok (args 1) ({ r with ap := 2 }, s) := rfl
  rw [hva]
  dsimp only
  have hprint : printString put m (stringAt (args 1)) (cputsFlags (args 0)) =
      strLoop put m false (2 ^ 32) (stringAt (args 1)) (args 0) 0#32 >>= fun width =>
        putTimes put (chr ' ').toNat width.toInt.toNat := by
    unfold printString
    rw [padLeft_of_width put m (stringAt (args 1)) (show (0#32).toInt ≤ 0 by decide), pure_bind]
    rfl
  rw [← stringAt, hprint, vprintfmt]
  cases (strLoop put m false (2 ^ 32) (stringAt (args 1)) (args 0) 0#32 >>= fun width =>
    putTimes put (chr ' ').toNat width.toInt.toNat) ({ r with ap := 2 }, s) with
  | ok a q => rfl
  | error e q => rfl

end

end Printfmt

namespace Kernel

open Printfmt

variable {s s' : Kernel} {c d : ℕ} {str len : Word}

/-! ## The system call -/

/-- The byte at a virtual address, read in kernel mode through the directory that is
loaded. -/
def peekByte (s : Kernel) (va : Word) : Option (BitVec 8) :=
  match mmuWalk s.phys s.thiscpu.cr3 (pgnum va) with
  | none => none
  | some t =>
    let o := va.toNat % pgsize
    some ((s.phys t.ppn (o / 4)).extractLsb' (8 * (o % 4)) 8)

/-- The arguments behind the format. -/
def cputsArgs (str len : Word) (k : ℕ) : Word := if k = 0 then len else str

/-- `cprintf("%.*s", len, s)`, the last line of `sys_cputs`. -/
def cputsPrint (s : Kernel) (str len : Word) : EStateM.Result Stuck (Printfmt.Run × KernConsole) Unit :=
  vprintfmt KernConsole.putch s.peekByte (cputsArgs str len) (Printfmt.str "%.*s")
    (⟨0, []⟩, ⟨[], 0#32⟩)

/-- Every byte read lies in the range, and nothing faults. -/
structure CputsSafe (s : Kernel) (str len : Word) : Prop where
  within : ∀ p ∈ (last (cputsPrint s str len)).1.reads,
    ∃ i < len.toNat, p = .mem (str + BitVec.ofNat 32 i)
  returns : ∃ q, cputsPrint s str len = .ok () q

theorem cputsPrint_eq (s : Kernel) (str len : Word) :
    cputsPrint s str len = (strLoop KernConsole.putch s.peekByte false (2 ^ 32) (stringAt str) len
      0#32 >>= fun width => putTimes KernConsole.putch (chr ' ').toNat width.toInt.toNat)
        (⟨2, []⟩, ⟨[], 0#32⟩) :=
  vprintfmt_cputs _ _ rfl

/-- What the loop has read is never forgotten. -/
theorem mem_reads_cputsPrint {p : Loc}
    (h : p ∈ (last (strLoop KernConsole.putch s.peekByte false (2 ^ 32) (stringAt str) len 0#32
      (⟨2, []⟩, ⟨[], 0#32⟩))).1.reads) : p ∈ (last (cputsPrint s str len)).1.reads := by
  rw [cputsPrint_eq, bind_apply]
  cases hloop : strLoop KernConsole.putch s.peekByte false (2 ^ 32) (stringAt str) len 0#32
      (⟨2, []⟩, ⟨[], 0#32⟩) with
  | ok w q =>
    rw [hloop] at h
    exact ((extends_putTimes _ _).run q).subset h
  | error e q =>
    rw [hloop] at h
    exact h

/-- The precision is negative, or it is the length. -/
theorem toInt_len (len : Word) : len.toInt < 0 ∨ len.toInt = len.toNat := by
  rw [BitVec.toInt_eq_toNat_cond]
  have := len.isLt
  split <;> omega

/-- **Without a zero the byte behind the range is read.** -/
theorem mem_reads_behind (h0 : str ≠ 0#32)
    (hb : ∀ i < len.toNat, ∃ b, s.peekByte (str + BitVec.ofNat 32 i) = some b ∧ b ≠ 0#8) :
    .mem (str + len) ∈ (last (cputsPrint s str len)).1.reads := by
  have hlt := len.isLt
  apply mem_reads_cputsPrint
  obtain ⟨fuel, hfuel⟩ : ∃ fuel, 2 ^ 32 = fuel + 1 + len.toNat := ⟨2 ^ 32 - 1 - len.toNat, by omega⟩
  obtain ⟨precision, width, t, hrounds⟩ := strLoop_rounds KernConsole.putch false (fuel + 1)
    len.toNat 0#32 ⟨2, []⟩ ⟨[], 0#32⟩ hb ((toInt_len len).imp id fun h => h.ge)
  rw [stringAt, if_neg h0, hfuel, hrounds, BitVec.ofNat_toNat, BitVec.setWidth_eq]
  exact mem_reads_strLoop false (Nat.succ_pos fuel) _ _ _ _ _

/-- **With a zero in the range nothing else is read.** -/
theorem cputsSafe_of_zero (h0 : str ≠ 0#32)
    (hb : ∀ i < len.toNat, ∃ b, s.peekByte (str + BitVec.ofNat 32 i) = some b)
    (hz : ∃ i < len.toNat, s.peekByte (str + BitVec.ofNat 32 i) = some 0#8) :
    CputsSafe s str len := by
  classical
  have hlt := len.isLt
  have hfirst := Nat.find_spec hz
  have hbefore : ∀ j, j < Nat.find hz → j < len.toNat →
      s.peekByte (str + BitVec.ofNat 32 j) ≠ some 0#8 :=
    fun j hj hjl h => Nat.find_min hz hj ⟨hjl, h⟩
  generalize Nat.find hz = n at hfirst hbefore
  obtain ⟨hn, hzero⟩ := hfirst
  have hb' : ∀ i < n, ∃ b, s.peekByte (str + BitVec.ofNat 32 i) = some b ∧ b ≠ 0#8 := by
    intro i hi
    obtain ⟨b, hbi⟩ := hb i (by omega)
    refine ⟨b, hbi, ?_⟩
    rintro rfl
    exact hbefore i hi (by omega) hbi
  obtain ⟨fuel, hfuel⟩ : ∃ fuel, 2 ^ 32 = fuel + 1 + n := ⟨2 ^ 32 - 1 - n, by omega⟩
  obtain ⟨precision, width, t, hrounds⟩ := strLoop_rounds KernConsole.putch false (fuel + 1)
    n 0#32 ⟨2, []⟩ ⟨[], 0#32⟩ hb' ((toInt_len len).imp id fun h => by omega)
  have hread : (Loc.mem (str + BitVec.ofNat 32 n)).read s.peekByte = some 0#8 := hzero
  have hloop : strLoop KernConsole.putch s.peekByte false (2 ^ 32) (stringAt str) len 0#32
      (⟨2, []⟩, ⟨[], 0#32⟩) = .ok width (⟨2, bytesFrom str (n + 1)⟩, t) := by
    rw [stringAt, if_neg h0, hfuel, hrounds, strLoop_zero _ _ _ _ _ _ hread, List.append_nil,
      bytesFrom_snoc]
  obtain ⟨t', hput⟩ := putTimes_ok KernConsole.putch (chr ' ').toNat width.toInt.toNat
    ⟨2, bytesFrom str (n + 1)⟩ t
  have hrun : cputsPrint s str len = .ok () (⟨2, bytesFrom str (n + 1)⟩, t') := by
    rw [cputsPrint_eq, bind_apply, hloop]
    exact hput
  refine ⟨fun p hp => ?_, _, hrun⟩
  rw [hrun] at hp
  have hp' : p ∈ bytesFrom str (n + 1) := hp
  rw [bytesFrom, List.mem_reverse, List.mem_map] at hp'
  obtain ⟨i, hi, rfl⟩ := hp'
  exact ⟨i, by rw [List.mem_range] at hi; omega, rfl⟩

/-- Safe reads end at a zero in the range. -/
theorem zero_of_cputsSafe
    (hb : ∀ i < len.toNat, ∃ b, s.peekByte (str + BitVec.ofNat 32 i) = some b)
    (h : CputsSafe s str len) :
    str ≠ 0#32 ∧ ∃ i < len.toNat, s.peekByte (str + BitVec.ofNat 32 i) = some 0#8 := by
  have hlt := len.isLt
  have h0 : str ≠ 0#32 := by
    rintro rfl
    have hmem : stringAt 0#32 ∈ (last (cputsPrint s 0#32 len)).1.reads :=
      mem_reads_cputsPrint (mem_reads_strLoop false (Nat.two_pow_pos 32) _ _ _ _ _)
    obtain ⟨i, -, hi⟩ := h.within _ hmem
    cases hi
  refine ⟨h0, ?_⟩
  by_contra hno
  have hb' : ∀ i < len.toNat, ∃ b, s.peekByte (str + BitVec.ofNat 32 i) = some b ∧ b ≠ 0#8 := by
    intro i hi
    obtain ⟨b, hbi⟩ := hb i hi
    refine ⟨b, hbi, ?_⟩
    rintro rfl
    exact hno ⟨i, hi, hbi⟩
  obtain ⟨i, hi, hmem⟩ := h.within _ (mem_reads_behind h0 hb')
  -- The byte behind the range is none of the range.
  have heq := congrArg (fun w => (w - str).toNat) (Loc.mem.inj hmem)
  simp only [BitVec.add_comm str, BitVec.add_sub_cancel, BitVec.toNat_ofNat] at heq
  omega

/-- A page that is granted can be read. -/
theorem peekByte_of_granted {perm va : Word} (hcr3 : s.thiscpu.cr3 = d)
    (h : Granted s d perm (pgnum va)) : ∃ b, s.peekByte va = some b := by
  obtain ⟨-, hp, hp', -⟩ := (granted_iff s d perm va).mp h
  unfold peekByte mmuWalk
  simp only [hcr3, pgnum_div, pgnum_mod]
  rw [if_pos ⟨hp, hp'⟩]
  exact ⟨_, rfl⟩

/-- `user_mem_assert` of the current environment returns only if the check has passed. -/
theorem userMemCheck_of_userMemAssert {va perm : Word} {r : ℤ} (hc : s.curenv = some c)
    (h : s.userMemAssert c va len perm = .ok (.ret r, s')) :
    s.userMemCheck c va len (perm ||| pteU) = .ok (0, s) ∧ s' = s := by
  unfold userMemAssert at h
  obtain ⟨⟨r', s₁⟩, hchk, hrest⟩ := bind_eq_ok.mp h
  clear h
  rcases userMemCheck_cases hchk with ⟨rfl, rfl⟩ | ⟨rfl, x, rfl⟩
  · dsimp only at hrest
    rw [if_neg (lt_irrefl 0)] at hrest
    obtain ⟨-, rfl⟩ := Prod.mk.inj (Except.ok.inj hrest)
    exact ⟨hchk, rfl⟩
  · dsimp only at hrest
    rw [if_pos (by decide)] at hrest
    exact absurd hrest (envDestroy_curenv hc)

/-- **`sys_cputs` reads inside the range exactly when there is a zero in it** and the pointer
is not null. -/
theorem cputsSafe_iff (hc : s.curenv = some c) (hd : (s.envs c).envPgdir = some d)
    (hcr3 : s.thiscpu.cr3 = d) (hfit : str.toNat + len.toNat ≤ ulim.toNat)
    (h : s.userMemAssert c str len 0#32 = .ok (.ret 0, s')) :
    CputsSafe s' str len ↔
      str ≠ 0#32 ∧ ∃ i < len.toNat, s.peekByte (str + BitVec.ofNat 32 i) = some 0#8 := by
  obtain ⟨hchk, hs⟩ := userMemCheck_of_userMemAssert hc h
  rw [toNat_ulim] at hfit
  rw [hs]
  have hb : ∀ i < len.toNat, ∃ b, s.peekByte (str + BitVec.ofNat 32 i) = some b := by
    intro i hi
    have hadd : (str + BitVec.ofNat 32 i).toNat = str.toNat + i := toNat_add_ofNat (by omega)
    refine peekByte_of_granted hcr3 (granted_of_userMemCheck hd (by omega) hchk ?_)
    rw [pagesOf, pgnum_eq, hadd]
    omega
  exact ⟨zero_of_cputsSafe hb, fun hz => cputsSafe_of_zero hz.1 hb hz.2⟩

/-! ### A string at the end of a page -/

/-- An environment with one page, at `0x1000`; its last byte is an `A`, the others are zero. -/
def onePage : Kernel where
  npages := 16
  pages _ := ⟨none, 0#16⟩
  pageFreeList := none
  phys f i :=
    if f = 2 ∧ i = 0 then 0x3007#32 else if f = 3 ∧ i = 1 then 0x4007#32
    else if f = 4 ∧ i = 1023 then 0x41000000#32 else 0#32
  kernPgdir := 1
  envs e :=
    { envTf := freshTrapframe
      envLink := none
      envId := nextEnvId 0#32 e
      envParentId := 0
      envStatus := if e = 0 then .running else .free
      envRuns := 0
      envCpunum := 0
      envPgdir := if e = 0 then some 2 else none
      envPgfaultUpcall := 0
      envIpcRecving := false
      envIpcDstva := 0
      envIpcValue := 0
      envIpcFrom := 0
      envIpcPerm := 0 }
  envFreeList := none
  cpus _ := ⟨.started, some 0, false, 2, []⟩
  cpunum := 0
  kernelLock := some 0
  userMemCheckAddr := 0
  log := []

theorem onePage_assert {str len : Word} (hfit : str.toNat + len.toNat + 4095 < 2 ^ 32)
    (hpage : ∀ k, pagesOf str len k → k = 1) :
    onePage.userMemAssert 0 str len 0#32 = .ok (.ret 0, onePage) := by
  have hchk : onePage.userMemCheck 0 str len (0#32 ||| pteU) = .ok (0, onePage) := by
    refine userMemCheck_of_granted (d := 2) rfl hfit (fun k hk => ?_) fun k hk => ?_
    · obtain rfl := hpage k hk
      exact fun _ => by decide
    · obtain rfl := hpage k hk
      exact ⟨by decide, 0x4007#32, by decide, by decide⟩
  unfold userMemAssert
  rw [hchk, ok_bind]
  rfl

/-- Two bytes of which the second is behind the `A` and the first is zero. -/
theorem cputsSafe_iff_onePage : CputsSafe onePage 0x1FFE#32 2#32 :=
  (cputsSafe_iff (s := onePage) (c := 0) (d := 2) rfl rfl rfl (by decide)
    (onePage_assert (by decide) (by
      intro k hk
      unfold pagesOf at hk
      have h1 : (0x1FFE#32).toNat = 8190 := by decide
      have h2 : (2#32).toNat = 2 := by decide
      omega))).mpr ⟨by decide, 0, by decide, by decide⟩

/-- **The byte behind the page is read**, where nothing is mapped. -/
theorem not_cputsSafe :
    ¬ ∀ (s s' : Kernel) (c d : ℕ) (str len : Word), s.curenv = some c →
      (s.envs c).envPgdir = some d → s.thiscpu.cr3 = d → str.toNat + len.toNat ≤ ulim.toNat →
      s.userMemAssert c str len 0#32 = .ok (.ret 0, s') → CputsSafe s' str len := by
  intro hall
  have hsafe := hall onePage onePage 0 2 0x1FFF#32 1#32 rfl rfl rfl (by decide)
    (onePage_assert (by decide) (by
      intro k hk
      unfold pagesOf at hk
      have h1 : (0x1FFF#32).toNat = 8191 := by decide
      have h2 : (1#32).toNat = 1 := by decide
      omega))
  have hbyte : onePage.peekByte 0x1FFF#32 = some 0x41#8 := by decide
  obtain ⟨-, i, hi, hz⟩ := zero_of_cputsSafe (fun i hi => by
    obtain rfl : i = 0 := by
      have h2 : (1#32).toNat = 1 := by decide
      omega
    exact ⟨0x41#8, hbyte⟩) hsafe
  obtain rfl : i = 0 := by
    have h2 : (1#32).toNat = 1 := by decide
    omega
  have hz' : onePage.peekByte 0x1FFF#32 = some 0#8 := hz
  rw [hbyte] at hz'
  exact absurd hz' (by decide)

end Kernel
end PmakeOs
