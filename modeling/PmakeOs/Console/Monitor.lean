import PmakeOs.Console.Printfmt
import PmakeOs.Lib.MaximalRuns
import PmakeOs.Lib.Offset

/-!
# `kern/monitor.c`: the command line

`runcmd` splits a command line in place.  White space is overwritten with zeros, and a word
ends at the zero that a later round of the loop stores, or at the end of the line.  There is
room for `MAXARGS - 1` words and the null pointer behind them, and the test for it stands
between the white space and the word.

The words are the maximal runs of other characters (`Lib.IsRun`), so `runcmd_splits` does not
mention the loop.  While it runs, the memory is always the old one with the white space in front of
the position blanked (`blanked`).
-/

namespace PmakeOs
namespace Monitor

open Lib Printfmt

/-! ## The program -/

/-- `WHITESPACE` -/
def whitespace : List (BitVec 8) := [0x09#8, 0x0D#8, 0x0A#8, 0x20#8]

/-- `MAXARGS` -/
def maxargs : ℕ := 16

/-- `strchr`, in a string constant: the place of the character. -/
def strchr : List (BitVec 8) → BitVec 8 → Option ℕ
  | [], _ => none
  | b :: s, c => if b = c then some 0 else (strchr s c).map (· + 1)

/-- `strcmp` of the string at `p` and a string constant, whose zero is left out. -/
def strcmp (m : Word → BitVec 8) (p : Word) : List (BitVec 8) → ℤ
  | [] => (m p).toNat
  | b :: q => if m p ≠ 0#8 ∧ m p = b then strcmp m (p + 1#32) q else (m p).toNat - b.toNat

/-- The functions that are commands.  Both print something and return 0. -/
inductive Func where
  | monHelp
  | monKerninfo
  deriving DecidableEq

/-- `struct Command`, without the description, which `mon_help` prints. -/
structure Command where
  name : List (BitVec 8)
  func : Func
  deriving DecidableEq

def commands : List Command := [⟨str "help", .monHelp⟩, ⟨str "kerninfo", .monKerninfo⟩]

/-- The memory and the variables of `runcmd`, with the indices of all stores to `argv`. -/
structure Cmdline where
  mem : Word → BitVec 8
  argv : ℕ → Word
  stores : List ℕ
  argc : ℕ
  buf : Word

/-- `argv[i] = p` -/
def Cmdline.setArg (x : Cmdline) (i : ℕ) (p : Word) : Cmdline :=
  { x with argv := Function.update x.argv i p, stores := x.stores ++ [i] }

/-- `while (*buf && strchr(WHITESPACE, *buf)) *buf++ = 0` -/
def gobble : ℕ → Cmdline → Option Cmdline
  | 0, _ => none
  | fuel + 1, x =>
    if x.mem x.buf ≠ 0#8 ∧ (strchr whitespace (x.mem x.buf)).isSome then
      gobble fuel { x with mem := Function.update x.mem x.buf 0#8, buf := x.buf + 1#32 }
    else some x

/-- `while (*buf && !strchr(WHITESPACE, *buf)) buf++` -/
def skip : ℕ → Cmdline → Option Cmdline
  | 0, _ => none
  | fuel + 1, x =>
    if x.mem x.buf ≠ 0#8 ∧ (strchr whitespace (x.mem x.buf)).isNone then
      skip fuel { x with buf := x.buf + 1#32 }
    else some x

/-- The loop.  It ends at the end of the line, or with `false` if there are too many words. -/
def split : ℕ → Cmdline → Option (Bool × Cmdline)
  | 0, _ => none
  | fuel + 1, x => do
    let x ← gobble (fuel + 1) x
    if x.mem x.buf = 0#8 then return (true, x)
    else if x.argc = maxargs - 1 then return (false, x)
    else
      let x ← skip (fuel + 1) { x.setArg x.argc x.buf with argc := x.argc + 1 }
      split fuel x

/-- What `runcmd` does with the words. -/
inductive Outcome where
  /-- "Too many arguments (max %d)", with `MAXARGS` -/
  | tooMany
  | nothing
  /-- `commands[i].func(argc, argv, tf)` -/
  | ran (command : Command)
  /-- "Unknown command '%s'", with `argv[0]` -/
  | unknown
  deriving DecidableEq

/-- Look up the command, and run it. -/
def dispatch (x : Cmdline) : Outcome :=
  if x.argc = 0 then .nothing
  else
    match commands.find? fun c => strcmp x.mem (x.argv 0) c.name = 0 with
    | some c => .ran c
    | none => .unknown

/-- `runcmd`; `argv` is not initialised. -/
def runcmd (fuel : ℕ) (mem : Word → BitVec 8) (buf : Word) (argv : ℕ → Word) :
    Option (Outcome × Cmdline) := do
  let (complete, x) ← split fuel ((⟨mem, argv, [], 0, buf⟩ : Cmdline).setArg 0 0#32)
  if complete then
    let x := x.setArg x.argc 0#32
    return (dispatch x, x)
  else return (.tooMany, x)

/-! ## What it should do -/

/-- A tab, a carriage return, a newline or a space. -/
def Blank (c : BitVec 8) : Prop := c = 0x09#8 ∨ c = 0x0D#8 ∨ c = 0x0A#8 ∨ c = 0x20#8

instance (c : BitVec 8) : Decidable (Blank c) := inferInstanceAs (Decidable (_ ∨ _))

/-- The character at an offset of a line. -/
abbrev charAt (m : Word → BitVec 8) (buf : Word) (k : ℕ) : BitVec 8 := m (buf + BitVec.ofNat 32 k)

/-- A string of `n` characters and its terminating zero. -/
structure Line (m : Word → BitVec 8) (buf : Word) (n : ℕ) : Prop where
  ne_zero : ∀ k < n, charAt m buf k ≠ 0#8
  zero : charAt m buf n = 0#8
  lt : n < 2 ^ 32

/-- The words of a line: the maximal runs of characters that are not white space. -/
def words (m : Word → BitVec 8) (buf : Word) (n : ℕ) : List (ℕ × ℕ) :=
  runs (fun k => ¬ Blank (charAt m buf k)) n

/-- The characters from offset `i` up to `j`. -/
def text (m : Word → BitVec 8) (buf : Word) (i j : ℕ) : List (BitVec 8) :=
  (List.range (j - i)).map fun k => charAt m buf (i + k)

/-- `p` points to the word at `[i, j)` of the line, which now ends there. -/
structure PointsTo (m : Word → BitVec 8) (buf : Word) (x : Cmdline) (p : Word) (i j : ℕ) :
    Prop where
  pointer : p = buf + BitVec.ofNat 32 i
  char : ∀ k, i ≤ k → k < j → charAt x.mem buf k = charAt m buf k
  zero : charAt x.mem buf j = 0#8

/-- What `runcmd` should have made of a line. -/
structure Handles (m : Word → BitVec 8) (buf : Word) (n : ℕ) (out : Outcome) (x : Cmdline) :
    Prop where
  /-- No store outside of `argv`. -/
  stores : ∀ k ∈ x.stores, k < maxargs
  /-- No store outside of the line. -/
  frame : ∀ a, (∀ k < n, a ≠ buf + BitVec.ofNat 32 k) → x.mem a = m a
  argc : x.argc = min (words m buf n).length (maxargs - 1)
  argv : ∀ k < x.argc, ∃ i j, (words m buf n)[k]? = some (i, j) ∧
    PointsTo m buf x (x.argv k) i j
  null : (words m buf n).length ≤ maxargs - 1 → x.argv x.argc = 0#32
  tooMany : out = .tooMany ↔ maxargs - 1 < (words m buf n).length
  ran : ∀ c, out = .ran c ↔ (words m buf n).length ≤ maxargs - 1 ∧ c ∈ commands ∧
    ∃ i j, (words m buf n)[0]? = some (i, j) ∧ c.name = text m buf i j

/-- The memory in which the white space among the first `o` characters is blanked. -/
def blanked (m : Word → BitVec 8) (buf : Word) (o : ℕ) (a : Word) : BitVec 8 :=
  if (a - buf).toNat < o ∧ Blank (m a) then 0#8 else m a

variable {m : Word → BitVec 8} {buf : Word} {n o i j k fuel : ℕ} {x y : Cmdline}

/-! ## The line -/

theorem blanked_at (o : ℕ) (hk : k < 2 ^ 32) : charAt (blanked m buf o) buf k =
    if k < o ∧ Blank (charAt m buf k) then 0#8 else charAt m buf k := by
  rw [charAt, blanked, toNat_add_ofNat_sub buf hk]

theorem blanked_zero (m : Word → BitVec 8) (buf : Word) : blanked m buf 0 = m := by
  funext a
  exact if_neg fun h => Nat.not_lt_zero _ h.1

theorem update_blanked (ho : o < 2 ^ 32) (hb : Blank (charAt m buf o)) :
    Function.update (blanked m buf o) (buf + BitVec.ofNat 32 o) 0#8 = blanked m buf (o + 1) := by
  funext a
  rcases eq_or_ne a (buf + BitVec.ofNat 32 o) with rfl | hne
  · rw [Function.update_self, blanked, toNat_add_ofNat_sub buf ho, if_pos ⟨Nat.lt_succ_self o, hb⟩]
  · have hoff : (a - buf).toNat ≠ o := fun h => hne (eq_add_of_toNat_sub h)
    rw [Function.update_of_ne hne, blanked, blanked]
    refine if_congr (and_congr_left' ?_) rfl rfl
    omega

theorem blanked_succ (hb : ¬ Blank (charAt m buf o)) : blanked m buf (o + 1) = blanked m buf o := by
  funext a
  rw [blanked, blanked]
  refine if_congr (and_congr_left fun h => ?_) rfl rfl
  have hoff : (a - buf).toNat ≠ o := by
    intro h0
    rw [eq_add_of_toNat_sub h0] at h
    exact hb h
  omega

theorem isSome_strchr_iff (c : BitVec 8) : (strchr whitespace c).isSome ↔ Blank c := by
  simp only [strchr, whitespace, Blank, eq_comm (a := c)]
  split <;> rename_i h₁
  · simp [h₁]
  · split <;> rename_i h₂
    · simp [h₂]
    · split <;> rename_i h₃
      · simp [h₃]
      · split <;> rename_i h₄
        · simp [h₄]
        · simp [h₁, h₂, h₃, h₄]

theorem isNone_strchr_iff (c : BitVec 8) : (strchr whitespace c).isNone ↔ ¬ Blank c := by
  rw [← isSome_strchr_iff]
  simp

/-! ## The inner loops -/

/-- A position of the line, and the memory that belongs to it. -/
def At (m : Word → BitVec 8) (buf : Word) (o : ℕ) (x : Cmdline) : Prop :=
  x.mem = blanked m buf o ∧ x.buf = buf + BitVec.ofNat 32 o

theorem At.read (h : At m buf o x) (ho : o < 2 ^ 32) : x.mem x.buf = charAt m buf o := by
  obtain ⟨hm, hb⟩ := h
  have heq : charAt (blanked m buf o) buf o = charAt m buf o := by
    rw [blanked_at o ho, if_neg fun h => Nat.lt_irrefl o h.1]
  rw [hm, hb]
  exact heq

theorem buf_succ (buf : Word) (o : ℕ) :
    buf + BitVec.ofNat 32 o + 1#32 = buf + BitVec.ofNat 32 (o + 1) := by
  rw [BitVec.add_assoc, BitVec.ofNat_add]

/-- **White space is blanked** up to the next word, or to the end. -/
theorem gobble_spec (h : Line m buf n) (ho : o ≤ n) (hx : At m buf o x) (hf : n - o < fuel) :
    ∃ o', o ≤ o' ∧ o' ≤ n ∧ (∀ k, o ≤ k → k < o' → Blank (charAt m buf k)) ∧
      (o' = n ∨ ¬ Blank (charAt m buf o')) ∧
      gobble fuel x = some { x with mem := blanked m buf o', buf := buf + BitVec.ofNat 32 o' } := by
  have hlt := h.lt
  induction fuel generalizing o x with
  | zero => omega
  | succ fuel ih =>
    rw [gobble, hx.read (by omega)]
    simp only [isSome_strchr_iff]
    by_cases hc : charAt m buf o ≠ 0#8 ∧ Blank (charAt m buf o)
    · have hon : o < n := by
        rcases Nat.lt_or_ge o n with hlt' | hge
        · exact hlt'
        · obtain rfl : o = n := by omega
          exact absurd h.zero hc.1
      obtain ⟨hm, hb⟩ := hx
      obtain ⟨o', hle, hn, hall, hend, hrun⟩ := ih (o := o + 1)
        (x := { x with mem := Function.update x.mem x.buf 0#8, buf := x.buf + 1#32 }) hon
        ⟨by rw [hm, hb]; exact update_blanked (by omega) hc.2, by rw [hb]; exact buf_succ buf o⟩
        (by omega)
      refine ⟨o', by omega, hn, fun k hk hk' => ?_, hend, ?_⟩
      · rcases eq_or_lt_of_le hk with rfl | hk
        · exact hc.2
        · exact hall k hk hk'
      · rw [if_pos hc]
        exact hrun
    · refine ⟨o, le_rfl, ho, fun k hk hk' => absurd hk' (by omega), ?_, ?_⟩
      · rcases eq_or_lt_of_le ho with heq | hon
        · exact Or.inl heq
        · exact Or.inr fun hb => hc ⟨h.ne_zero o hon, hb⟩
      · rw [if_neg hc, ← hx.1, ← hx.2]

/-- **A word is left alone.** -/
theorem skip_spec (h : Line m buf n) (ho : o ≤ n) (hx : At m buf o x) (hf : n - o < fuel) :
    ∃ o', o ≤ o' ∧ o' ≤ n ∧ (∀ k, o ≤ k → k < o' → ¬ Blank (charAt m buf k)) ∧
      (o' = n ∨ Blank (charAt m buf o')) ∧
      skip fuel x = some { x with mem := blanked m buf o', buf := buf + BitVec.ofNat 32 o' } := by
  have hlt := h.lt
  induction fuel generalizing o x with
  | zero => omega
  | succ fuel ih =>
    rw [skip, hx.read (by omega)]
    simp only [isNone_strchr_iff]
    by_cases hc : charAt m buf o ≠ 0#8 ∧ ¬ Blank (charAt m buf o)
    · have hon : o < n := by
        rcases Nat.lt_or_ge o n with hlt' | hge
        · exact hlt'
        · obtain rfl : o = n := by omega
          exact absurd h.zero hc.1
      obtain ⟨hm, hb⟩ := hx
      obtain ⟨o', hle, hn, hall, hend, hrun⟩ := ih (o := o + 1)
        (x := { x with buf := x.buf + 1#32 }) hon
        ⟨by rw [blanked_succ hc.2]; exact hm, by rw [hb]; exact buf_succ buf o⟩ (by omega)
      refine ⟨o', by omega, hn, fun k hk hk' => ?_, hend, ?_⟩
      · rcases eq_or_lt_of_le hk with rfl | hk
        · exact hc.2
        · exact hall k hk hk'
      · rw [if_pos hc]
        exact hrun
    · refine ⟨o, le_rfl, ho, fun k hk hk' => absurd hk' (by omega), ?_, ?_⟩
      · rcases eq_or_lt_of_le ho with heq | hon
        · exact Or.inl heq
        · exact Or.inr (not_not.mp fun hb => hc ⟨h.ne_zero o hon, hb⟩)
      · rw [if_neg hc, ← hx.1, ← hx.2]

/-! ## The loop -/

/-- In front of position `o`, the words so far are in `argv`. -/
structure Splitting (m : Word → BitVec 8) (buf : Word) (n o : ℕ) (x : Cmdline) : Prop where
  pos : At m buf o x
  argc_le : x.argc ≤ maxargs - 1
  argc_le_length : x.argc ≤ (words m buf n).length
  rest : (words m buf n).drop x.argc = runsAt (fun k => ¬ Blank (charAt m buf k)) n o
  argv : ∀ k < x.argc, ∀ i j, (words m buf n)[k]? = some (i, j) → x.argv k = buf + BitVec.ofNat 32 i
  stores : ∀ k ∈ x.stores, k < maxargs

/-- The next word. -/
theorem Splitting.get (h : Splitting m buf n o x) {e : ℕ} {l : List (ℕ × ℕ)}
    (hrest : runsAt (fun k => ¬ Blank (charAt m buf k)) n o = (o, e) :: l) :
    (words m buf n)[x.argc]? = some (o, e) := by
  have h0 := @List.getElem?_drop _ (words m buf n) x.argc 0
  rw [h.rest, hrest] at h0
  exact h0.symm

/-- The white space in front of a word. -/
theorem Splitting.blank (h : Splitting m buf n o x) {o' : ℕ} (ho : o ≤ o') (hn : o' ≤ n)
    (hall : ∀ k, o ≤ k → k < o' → Blank (charAt m buf k)) :
    Splitting m buf n o' { x with mem := blanked m buf o', buf := buf + BitVec.ofNat 32 o' } := by
  obtain ⟨-, hle, hlen, hdrop, hargv, hstores⟩ := h
  refine ⟨⟨rfl, rfl⟩, hle, hlen, ?_, hargv, hstores⟩
  rw [hdrop]
  exact runsAt_of_forall_not ho hn fun k hk hk' => not_not.mpr (hall k hk hk')

/-- A word, and the position behind it. -/
theorem Splitting.word (h : Splitting m buf n o x) (hlt : x.argc ≠ maxargs - 1) {e : ℕ}
    (hrest : runsAt (fun k => ¬ Blank (charAt m buf k)) n o =
      (o, e) :: runsAt (fun k => ¬ Blank (charAt m buf k)) n e) :
    Splitting m buf n e { x.setArg x.argc x.buf with
      argc := x.argc + 1, mem := blanked m buf e, buf := buf + BitVec.ofNat 32 e } := by
  have hget := h.get hrest
  obtain ⟨hpos, hle, hlen, hdrop, hargv, hstores⟩ := h
  rw [hrest] at hdrop
  have hlt' : x.argc < (words m buf n).length := (List.getElem?_eq_some_iff.mp hget).1
  refine ⟨⟨rfl, rfl⟩, by dsimp only; omega, hlt', ?_, fun k hk i j hij => ?_, fun k hk => ?_⟩
  · dsimp only
    rw [← List.tail_drop, hdrop, List.tail_cons]
  · show Function.update x.argv x.argc x.buf k = _
    rcases eq_or_ne k x.argc with rfl | hne
    · rw [hget] at hij
      obtain ⟨rfl, -⟩ := Prod.mk.inj (Option.some.inj hij)
      rw [Function.update_self, hpos.2]
    · rw [Function.update_of_ne hne]
      dsimp only at hk
      exact hargv k (by omega) i j hij
  · rcases List.mem_append.mp hk with hk | hk
    · exact hstores k hk
    · rw [List.mem_singleton.mp hk]
      have heq : maxargs = 16 := rfl
      omega

/-- **The loop** ends at the end of the line, or in front of the word that is too many. -/
theorem split_spec (h : Line m buf n) (ho : o ≤ n) (hs : Splitting m buf n o x)
    (hf : n - o < fuel) : ∃ complete y o', split fuel x = some (complete, y) ∧ o' ≤ n ∧
      Splitting m buf n o' y ∧ (complete = true → o' = n) ∧
      (complete = false → y.argc = maxargs - 1 ∧ ∃ e, (words m buf n)[y.argc]? = some (o', e)) := by
  have hlt := h.lt
  induction fuel generalizing o x with
  | zero => omega
  | succ fuel ih =>
    obtain ⟨o', hle, hn, hall, hend, hgobble⟩ := gobble_spec h ho hs.pos hf
    have hs' := hs.blank hle hn hall
    rw [split, hgobble]
    show ∃ complete y o'', (if _ = 0#8 then _ else _) = _ ∧ _
    rw [hs'.pos.read (by omega)]
    by_cases hdone : o' = n
    · subst hdone
      rw [if_pos h.zero]
      exact ⟨true, _, o', rfl, le_rfl, hs', fun _ => rfl, fun h0 => absurd h0 (by decide)⟩
    have hnb := hend.resolve_left hdone
    rw [if_neg (h.ne_zero o' (by omega))]
    -- the word that begins here
    obtain ⟨e, hle', hn', hall', hend', hskip⟩ := skip_spec
      (x := { ({ x with mem := blanked m buf o', buf := buf + BitVec.ofNat 32 o' } : Cmdline).setArg
        x.argc (buf + BitVec.ofNat 32 o') with argc := x.argc + 1 }) h hn ⟨rfl, rfl⟩
      (show n - o' < fuel + 1 by omega)
    have hoe : o' < e := by
      rcases eq_or_lt_of_le hle' with rfl | hlt'
      · exact absurd (hend'.resolve_left hdone) hnb
      · exact hlt'
    have hrest := runsAt_of_run (p := fun k => ¬ Blank (charAt m buf k)) hoe hn' hall'
      (hend'.imp_right not_not.mpr)
    by_cases hfull : x.argc = maxargs - 1
    · rw [if_pos hfull]
      exact ⟨false, _, o', rfl, hn, hs', fun h0 => absurd h0 (by decide),
        fun _ => ⟨hfull, e, hs'.get hrest⟩⟩
    · rw [if_neg hfull]
      show ∃ complete y o'', (skip (fuel + 1) _ >>= _) = _ ∧ _
      rw [hskip]
      exact ih hn' (hs'.word hfull hrest) (by omega)

/-- The words in `argv` are what they should be, as far as the position is behind them. -/
theorem Splitting.pointsTo (h : Line m buf n) (hs : Splitting m buf n o x) (ho : o ≤ n)
    (hk : k < x.argc) (hij : (words m buf n)[k]? = some (i, j)) (hj : j < o ∨ j = n) :
    PointsTo m buf x (x.argv k) i j := by
  have hlt := h.lt
  have hrun := (mem_runs _ n i j).mp (List.mem_of_getElem? hij)
  have hle := hrun.le
  refine ⟨hs.argv k hk i j hij, fun k' hi hk' => ?_, ?_⟩
  · rw [hs.pos.1, blanked_at o (by omega), if_neg fun h0 => hrun.all k' hi hk' h0.2]
  · rw [hs.pos.1, blanked_at o (by omega)]
    split
    · rfl
    · rename_i hnot
      rcases eq_or_ne j n with rfl | hne
      · exact h.zero
      · exact absurd ⟨by omega, not_not.mp (hrun.right.resolve_left hne)⟩ hnot

/-! ## The command -/

theorem strcmp_eq_zero_iff {q : List (BitVec 8)} (hq : ∀ b ∈ q, b ≠ 0#8) (p : Word) :
    strcmp m p q = 0 ↔
      (∀ k (hk : k < q.length), charAt m p k = q[k]) ∧ charAt m p q.length = 0#8 := by
  induction q generalizing p with
  | nil =>
    rw [strcmp]
    simp [charAt, BitVec.toNat_eq]
  | cons b q ih =>
    rw [List.forall_mem_cons] at hq
    have hshift : ∀ k, charAt m p (k + 1) = charAt m (p + 1#32) k := by
      intro k
      rw [charAt, charAt, Nat.add_comm, BitVec.ofNat_add, ← BitVec.add_assoc]
    have hzero : charAt m p 0 = m p := congrArg m (BitVec.add_zero p)
    have hlast : charAt m p (b :: q).length = charAt m (p + 1#32) q.length := hshift q.length
    rw [strcmp]
    by_cases hb : m p = b
    · rw [if_pos ⟨by rw [hb]; exact hq.1, hb⟩, ih hq.2, hlast]
      refine and_congr_left' ⟨fun h k hk => ?_, fun h k hk => ?_⟩
      · cases k with
        | zero => exact hzero.trans hb
        | succ k =>
          rw [hshift]
          exact h k (Nat.lt_of_succ_lt_succ hk)
      · have h' := h (k + 1) (Nat.succ_lt_succ hk)
        rwa [hshift] at h'
    · rw [if_neg fun h => hb h.2]
      constructor
      · intro h
        refine absurd (BitVec.eq_of_toNat_eq ?_) hb
        omega
      · intro h
        exact absurd (hzero.symm.trans (h.1 0 (Nat.succ_pos _))) hb

theorem length_text (m : Word → BitVec 8) (buf : Word) (i j : ℕ) :
    (text m buf i j).length = j - i := by rw [text, List.length_map, List.length_range]

theorem getElem_text (hk : k < (text m buf i j).length) :
    (text m buf i j)[k] = charAt m buf (i + k) := by simp [text]

/-- **`strcmp` compares the word.** -/
theorem PointsTo.strcmp_iff (h : Line m buf n) {p : Word} (hp : PointsTo m buf x p i j)
    (hij : i ≤ j) (hj : j ≤ n) {q : List (BitVec 8)} (hq : ∀ b ∈ q, b ≠ 0#8) :
    strcmp x.mem p q = 0 ↔ q = text m buf i j := by
  obtain ⟨rfl, hchar, hzero⟩ := hp
  rw [strcmp_eq_zero_iff hq]
  have hshift : ∀ k, charAt x.mem (buf + BitVec.ofNat 32 i) k = charAt x.mem buf (i + k) := by
    intro k
    rw [charAt, charAt, BitVec.add_assoc, BitVec.ofNat_add]
  simp only [hshift]
  constructor
  · rintro ⟨hall, hend⟩
    have hlen : q.length = j - i := by
      rcases Nat.lt_trichotomy q.length (j - i) with hlt | heq | hgt
      · rw [hchar _ (by omega) (by omega)] at hend
        exact absurd hend (h.ne_zero _ (by omega))
      · exact heq
      · have h0 := hall (j - i) hgt
        rw [show i + (j - i) = j by omega, hzero] at h0
        exact absurd h0.symm (hq _ (List.getElem_mem hgt))
    refine List.ext_getElem (by rw [hlen, length_text]) fun k hk hk' => ?_
    rw [getElem_text hk', ← hall k hk, hchar _ (by omega) (by omega)]
  · rintro rfl
    have hlen := length_text m buf i j
    refine ⟨fun k hk => ?_, ?_⟩
    · rw [hchar _ (by omega) (by omega), getElem_text]
    · rw [hlen, show i + (j - i) = j by omega]
      exact hzero

theorem commands_ne_zero : ∀ c ∈ commands, ∀ b ∈ c.name, b ≠ 0#8 := by decide

/-- No two commands have one name. -/
theorem commands_name : ∀ c ∈ commands, ∀ c' ∈ commands, c.name = c'.name → c = c' := by decide

theorem dispatch_of_argc_eq_zero (h : x.argc = 0) : dispatch x = .nothing := if_pos h

/-- **Which command is run.** -/
theorem dispatch_iff (hne : x.argc ≠ 0) (h : Line m buf n) (hp : PointsTo m buf x (x.argv 0) i j)
    (hij : i ≤ j) (hj : j ≤ n) (c : Command) :
    dispatch x = .ran c ↔ c ∈ commands ∧ c.name = text m buf i j := by
  have hcmp : ∀ c ∈ commands, strcmp x.mem (x.argv 0) c.name = 0 ↔ c.name = text m buf i j :=
    fun c hc => hp.strcmp_iff h hij hj (commands_ne_zero c hc)
  rw [dispatch, if_neg hne]
  cases hfind : commands.find? fun c => strcmp x.mem (x.argv 0) c.name = 0 with
  | none =>
    refine ⟨fun h0 => Outcome.noConfusion h0, fun h0 => ?_⟩
    have hno := List.find?_eq_none.mp hfind c h0.1
    exact absurd (decide_eq_true ((hcmp c h0.1).mpr h0.2)) hno
  | some c' =>
    have hmem := List.mem_of_find?_eq_some hfind
    have hname := (hcmp c' hmem).mp (of_decide_eq_true (List.find?_some hfind :))
    constructor
    · intro h0
      obtain rfl := Outcome.ran.inj h0
      exact ⟨hmem, hname⟩
    · rintro ⟨hc, hc'⟩
      rw [commands_name c hc c' hmem (hc'.trans hname.symm)]

theorem dispatch_ne_tooMany (x : Cmdline) : dispatch x ≠ .tooMany := by
  unfold dispatch
  split
  · exact Outcome.noConfusion
  · split
    · exact Outcome.noConfusion
    · exact Outcome.noConfusion

/-! ## The whole function -/

theorem Splitting.frame (hs : Splitting m buf n o x) (ho : o ≤ n) {a : Word}
    (ha : ∀ k < n, a ≠ buf + BitVec.ofNat 32 k) : x.mem a = m a := by
  rw [hs.pos.1, blanked]
  refine if_neg fun h => ?_
  exact ha _ (lt_of_lt_of_le h.1 ho) (eq_add_of_toNat_sub rfl)

theorem Splitting.exists_word (hs : Splitting m buf n o x) (hk : k < x.argc) :
    ∃ i j, (words m buf n)[k]? = some (i, j) :=
  ⟨_, _, List.getElem?_eq_getElem (lt_of_lt_of_le hk hs.argc_le_length)⟩

/-- A word in front of the one at the position ends before it. -/
theorem lt_of_getElem? {l e : ℕ} (hk : k < l) (hij : (words m buf n)[k]? = some (i, j))
    (ho : (words m buf n)[l]? = some (o, e)) : j < o := by
  obtain ⟨hkl, hij⟩ := List.getElem?_eq_some_iff.mp hij
  obtain ⟨hll, ho⟩ := List.getElem?_eq_some_iff.mp ho
  have hpair := List.pairwise_iff_getElem.mp (runs_pairwise _ n) k l hkl hll hk
  change ((words m buf n)[k]).2 < ((words m buf n)[l]).1 at hpair
  rwa [hij, ho] at hpair

/-- All words fit. -/
theorem Splitting.handles (h : Line m buf n) (hs : Splitting m buf n n x) :
    Handles m buf n (dispatch (x.setArg x.argc 0#32)) (x.setArg x.argc 0#32) := by
  have hmax : maxargs = 16 := rfl
  have hlen : x.argc = (words m buf n).length := by
    have hrest := hs.rest
    rw [runsAt_end, List.drop_eq_nil_iff] at hrest
    exact Nat.le_antisymm hs.argc_le_length hrest
  have hfits : (words m buf n).length ≤ maxargs - 1 := hlen ▸ hs.argc_le
  have hpoints : ∀ k < x.argc, ∀ i j, (words m buf n)[k]? = some (i, j) →
      PointsTo m buf (x.setArg x.argc 0#32) ((x.setArg x.argc 0#32).argv k) i j := by
    intro k hk i j hij
    have hrun := (mem_runs _ n i j).mp (List.mem_of_getElem? hij)
    obtain ⟨hp, hchar, hzero⟩ := hs.pointsTo h le_rfl hk hij (by have := hrun.le; omega)
    refine ⟨?_, hchar, hzero⟩
    show Function.update x.argv x.argc 0#32 k = _
    rw [Function.update_of_ne (by omega)]
    exact hp
  refine ⟨fun k hk => ?_, fun a ha => hs.frame le_rfl ha, ?_, fun k hk => ?_, fun _ => ?_,
    ⟨fun h0 => absurd h0 (dispatch_ne_tooMany _), fun h0 => absurd h0 (by omega)⟩, fun c => ?_⟩
  · rcases List.mem_append.mp hk with hk | hk
    · exact hs.stores k hk
    · rw [List.mem_singleton.mp hk]
      have hle := hs.argc_le
      omega
  · show x.argc = _
    omega
  · obtain ⟨i, j, hij⟩ := hs.exists_word hk
    exact ⟨i, j, hij, hpoints k hk i j hij⟩
  · exact Function.update_self _ _ _
  · by_cases hzero : x.argc = 0
    · rw [dispatch_of_argc_eq_zero (x := x.setArg x.argc 0#32) hzero]
      refine ⟨fun h0 => Outcome.noConfusion h0, ?_⟩
      rintro ⟨-, -, i, j, hij, -⟩
      rw [List.getElem?_eq_none (by omega)] at hij
      cases hij
    · obtain ⟨i, j, hij⟩ := hs.exists_word (Nat.pos_of_ne_zero hzero)
      have hrun := (mem_runs _ n i j).mp (List.mem_of_getElem? hij)
      rw [dispatch_iff (x := x.setArg x.argc 0#32) hzero h
        (hpoints 0 (Nat.pos_of_ne_zero hzero) i j hij) hrun.lt.le hrun.le]
      constructor
      · rintro ⟨hc, hname⟩
        exact ⟨hfits, hc, i, j, hij, hname⟩
      · rintro ⟨-, hc, i', j', hij', hname⟩
        obtain ⟨rfl, rfl⟩ := Prod.mk.inj (Option.some.inj (hij.symm.trans hij'))
        exact ⟨hc, hname⟩

/-- There is one word too many. -/
theorem Splitting.handles_tooMany (h : Line m buf n) (hs : Splitting m buf n o x) (ho : o ≤ n)
    (hfull : x.argc = maxargs - 1) {e : ℕ} (hword : (words m buf n)[x.argc]? = some (o, e)) :
    Handles m buf n .tooMany x := by
  have hmany : maxargs - 1 < (words m buf n).length := by
    rw [← hfull]
    exact (List.getElem?_eq_some_iff.mp hword).1
  refine ⟨hs.stores, fun a ha => hs.frame ho ha, by omega, fun k hk => ?_,
    fun h0 => absurd h0 (by omega), ⟨fun _ => hmany, fun _ => rfl⟩,
    fun c => ⟨fun h0 => Outcome.noConfusion h0, fun h0 => absurd h0.1 (by omega)⟩⟩
  obtain ⟨i, j, hij⟩ := hs.exists_word hk
  exact ⟨i, j, hij, hs.pointsTo h ho hk hij (Or.inl (lt_of_getElem? hk hij hword))⟩

/-- **What `runcmd` does with a command line**, whatever is in `argv` before.  Any bound above
the length of the line is enough for its loops. -/
theorem runcmd_handles (h : Line m buf n) (argv : ℕ → Word) :
    (∀ fuel, n < fuel → ∃ out x, runcmd fuel m buf argv = some (out, x) ∧
      Handles m buf n out x) ∧
    ((words m buf n).Pairwise fun a b => a.2 < b.1) ∧
    ∀ i j, (i, j) ∈ words m buf n ↔ IsRun (fun k => ¬ Blank (charAt m buf k)) n i j := by
  refine ⟨fun fuel hf => ?_, runs_pairwise _ n, mem_runs _ n⟩
  have hstart : Splitting m buf n 0 ((⟨m, argv, [], 0, buf⟩ : Cmdline).setArg 0 0#32) := by
    refine ⟨⟨(blanked_zero m buf).symm, (BitVec.add_zero buf).symm⟩, Nat.zero_le _, Nat.zero_le _, rfl,
      fun k hk => absurd hk (Nat.not_lt_zero k), fun k hk => ?_⟩
    rw [List.mem_singleton.mp hk]
    decide
  obtain ⟨complete, y, o, hrun, ho, hy, hdone, hmany⟩ := split_spec h (Nat.zero_le n) hstart
    (by omega)
  unfold runcmd
  rw [hrun]
  cases complete with
  | true =>
    obtain rfl := hdone rfl
    exact ⟨_, _, rfl, hy.handles h⟩
  | false =>
    obtain ⟨hfull, e, hword⟩ := hmany rfl
    exact ⟨_, _, rfl, hy.handles_tooMany h ho hfull hword⟩

/-- The line `" help\tme"`. -/
theorem runcmd_handles_help : ∃ out x,
    runcmd 10 (fun a => ([0x20#8] ++ str "help" ++ [0x09#8] ++ str "me").getD a.toNat 0#8) 0#32
      (fun _ => 0#32) = some (out, x) ∧
    Handles (fun a => ([0x20#8] ++ str "help" ++ [0x09#8] ++ str "me").getD a.toNat 0#8) 0#32 8
      out x :=
  (runcmd_handles ⟨by decide, by decide, by decide⟩ fun _ => 0#32).1 10 (by decide)

end Monitor
end PmakeOs
