import PmakeOs.Console.Cputs

/-!
# What `sys_cputs` prints

The comment above `sys_cputs` says that the string is exactly `len` characters long, but
the characters are printed with `%.*s`: the length is a precision, and that is no more than
an upper bound.  The loop ends at a zero (`StopsAt`), it reads one byte more than it prints,
a length from `2 ^ 31` on is no bound at all, and the width, which counts down from zero,
comes out positive behind `2 ^ 31` characters and is filled with blanks.  `EmitsWhen` is what
remains: the ranges that are printed as they are.
-/

namespace PmakeOs

open Lib

namespace Printfmt

section

variable {m : Word → Option (BitVec 8)} {args : ℕ → Word} {p : Loc} {precision width : Word}
  {b : BitVec 8} {n fuel : ℕ}

/-! ## Where the loop over a string stops -/

/-- `p + n` -/
def Loc.after : Loc → ℕ → Loc
  | .mem a, n => .mem (a + BitVec.ofNat 32 n)
  | .lit s i, n => .lit s (i + n)

theorem Loc.after_zero (p : Loc) : p.after 0 = p := by
  cases p with
  | mem a => exact congrArg Loc.mem (BitVec.add_zero a)
  | lit s i => rfl

theorem Loc.next_after (p : Loc) (n : ℕ) : p.next.after n = p.after (n + 1) := by
  cases p with
  | mem a =>
    show Loc.mem (a + 1#32 + BitVec.ofNat 32 n) = Loc.mem (a + BitVec.ofNat 32 (n + 1))
    rw [BitVec.ofNat_add, BitVec.add_assoc, BitVec.add_comm 1#32]
  | lit s i =>
    show Loc.lit s (i + 1 + n) = Loc.lit s (i + (n + 1))
    rw [Nat.add_assoc, Nat.add_comm 1]

/-- The loop over the string at `p` stops behind `n` characters: the bytes before are not
zero, the precision lets them through, and what follows is a zero or the precision is used
up. -/
structure StopsAt (m : Word → Option (BitVec 8)) (p : Loc) (precision : Word) (n : ℕ) : Prop where
  before : ∀ i < n, ∃ b, (p.after i).read m = some b ∧ b ≠ 0#8
  allowed : precision.toInt < 0 ∨ n ≤ precision.toInt
  stop : ∃ b, (p.after n).read m = some b ∧ (b = 0#8 ∨ precision.toInt = n)

/-- The precision after a character. -/
def counted (precision : Word) : Word :=
  if precision.toInt < 0 then precision else precision - 1#32

theorem toInt_counted (precision : Word) :
    (counted precision).toInt = if precision.toInt < 0 then precision.toInt
      else precision.toInt - 1 := by
  unfold counted
  split
  · rfl
  · have hlt := precision.toInt_lt
    rw [BitVec.toInt_sub, Int.bmod_eq_of_le (by simp; omega) (by simp; omega)]
    rfl

/-- Behind a character the loop goes on with the rest. -/
theorem stopsAt_succ (hread : p.read m = some b) (hb : b ≠ 0#8) (hp : precision.toInt ≠ 0) :
    StopsAt m p precision (n + 1) ↔ StopsAt m p.next (counted precision) n := by
  have hc := toInt_counted precision
  have hallowed : (precision.toInt < 0 ∨ ((n + 1 : ℕ) : ℤ) ≤ precision.toInt) ↔
      ((counted precision).toInt < 0 ∨ (n : ℤ) ≤ (counted precision).toInt) := by
    rw [hc]
    split <;> omega
  have hend : precision.toInt = ((n + 1 : ℕ) : ℤ) ↔ (counted precision).toInt = n := by
    rw [hc]
    split <;> omega
  constructor
  · rintro ⟨hbefore, hall, hstop⟩
    refine ⟨fun i hi => ?_, hallowed.mp hall, ?_⟩
    · rw [Loc.next_after]
      exact hbefore (i + 1) (by omega)
    · rw [Loc.next_after]
      exact hstop.imp fun c hcr => ⟨hcr.1, hcr.2.imp id hend.mp⟩
  · rintro ⟨hbefore, hall, hstop⟩
    refine ⟨fun i hi => ?_, hallowed.mpr hall, ?_⟩
    · cases i with
      | zero => exact ⟨b, by rw [Loc.after_zero]; exact hread, hb⟩
      | succ i =>
        rw [← Loc.next_after]
        exact hbefore i (by omega)
    · rw [← Loc.next_after]
      exact hstop.imp fun c hcr => ⟨hcr.1, hcr.2.imp id hend.mpr⟩

/-- The first `n` characters from `p` on. -/
def chars (m : Word → Option (BitVec 8)) (p : Loc) (n : ℕ) : List ℤ :=
  (List.range n).map fun i => (((p.after i).read m).getD 0#8).toInt

theorem chars_succ (hread : p.read m = some b) (n : ℕ) :
    chars m p (n + 1) = b.toInt :: chars m p.next n := by
  unfold chars
  rw [List.range_succ_eq_map, List.map_cons, List.map_map, Loc.after_zero, hread]
  congr 1
  refine List.map_congr_left fun i _ => ?_
  rw [Loc.next_after]
  rfl

theorem length_chars (m : Word → Option (BitVec 8)) (p : Loc) (n : ℕ) :
    (chars m p n).length = n := by
  rw [chars, List.length_map, List.length_range]

/-- One round of the loop prints the character and goes on. -/
theorem strLoop_step (hread : p.read m = some b) (hb : b ≠ 0#8) (hp : precision.toInt ≠ 0)
    (r : Run) (l : List ℤ) :
    strLoop snoc m false (fuel + 1) p precision width (r, l) =
      strLoop snoc m false fuel p.next (counted precision) (width - 1#32)
        ({ r with reads := p :: r.reads }, l ++ [b.toInt]) := by
  have hput : putOne snoc false b = putch snoc b.toInt := if_neg fun h => Bool.false_ne_true h.1
  rw [strLoop, bind_apply, peek_some hread]
  dsimp only
  rw [if_neg hb]
  have hc := toInt_counted precision
  by_cases hneg : precision.toInt < 0
  · rw [if_pos hneg, bind_apply, hput, counted, if_pos hneg]
    rfl
  · rw [if_neg hneg] at hc
    rw [counted, if_neg hneg] at hc
    rw [if_neg hneg, if_pos (by omega), bind_apply, hput, counted, if_neg hneg]
    rfl

/-- One round of the loop at its end. -/
theorem strLoop_stop (hread : p.read m = some b) (h : b = 0#8 ∨ precision.toInt = 0) (r : Run)
    (l : List ℤ) :
    strLoop snoc m false (fuel + 1) p precision width (r, l) =
      .ok width ({ r with reads := p :: r.reads }, l) := by
  rw [strLoop, bind_apply, peek_some hread]
  dsimp only
  by_cases hb : b = 0#8
  · rw [if_pos hb]
    rfl
  · have hp : precision = 0#32 := BitVec.toInt_inj.mp (h.resolve_left hb)
    rw [if_neg hb, hp, if_neg (by decide), if_neg (by decide)]
    rfl

/-- **A loop that has a place to stop prints the characters before it.** -/
theorem strLoop_of_stopsAt (h : StopsAt m p precision n) (hn : n < fuel) (r : Run) (l : List ℤ) :
    ∃ r', strLoop snoc m false fuel p precision width (r, l) =
      .ok (width - BitVec.ofNat 32 n) (r', l ++ chars m p n) := by
  induction n generalizing fuel p precision width r l with
  | zero =>
    obtain ⟨k, rfl⟩ := Nat.exists_eq_add_of_lt hn
    rw [Nat.zero_add]
    obtain ⟨c, hread, hc⟩ := h.stop
    rw [Loc.after_zero] at hread
    rw [strLoop_stop hread hc, chars, List.range_zero, List.map_nil, List.append_nil,
      show BitVec.ofNat 32 0 = 0#32 from rfl, BitVec.sub_zero]
    exact ⟨_, rfl⟩
  | succ n ih =>
    obtain ⟨c, hread, hc⟩ := h.before 0 (Nat.succ_pos n)
    rw [Loc.after_zero] at hread
    have hp : precision.toInt ≠ 0 := by
      rcases h.allowed with hneg | hle <;> omega
    obtain ⟨k, rfl⟩ : ∃ k, fuel = k + 1 := ⟨fuel - 1, by omega⟩
    have hk : n < k := Nat.lt_of_succ_lt_succ hn
    obtain ⟨r', hrun⟩ := ih ((stopsAt_succ hread hc hp).mp h) hk
      { r with reads := p :: r.reads } (l ++ [c.toInt])
    refine ⟨r', ?_⟩
    rw [strLoop_step hread hc hp, hrun, chars_succ hread, List.append_assoc, List.singleton_append,
      BitVec.ofNat_add, BitVec.add_comm (BitVec.ofNat 32 n), BitVec.sub_sub]

/-- A loop that returns has a place to stop. -/
theorem stopsAt_of_strLoop {w : Word} {r : Run} {l : List ℤ} {q : Run × List ℤ}
    (h : strLoop snoc m false fuel p precision width (r, l) = .ok w q) :
    ∃ n < fuel, StopsAt m p precision n := by
  induction fuel generalizing p precision width r l with
  | zero =>
    rw [strLoop] at h
    cases h
  | succ fuel ih =>
    cases hread : p.read m with
    | none =>
      rw [strLoop, bind_apply] at h
      unfold peek Out.own at h
      simp only [hread] at h
      cases h
    | some c =>
      by_cases hstop : c = 0#8 ∨ precision.toInt = 0
      · refine ⟨0, Nat.succ_pos fuel, fun i hi => absurd hi (Nat.not_lt_zero i), ?_, c, ?_, hstop⟩
        · exact (lt_or_ge precision.toInt 0).imp id id
        · rw [Loc.after_zero]
          exact hread
      · obtain ⟨hc, hp⟩ := not_or.mp hstop
        rw [strLoop_step hread hc hp] at h
        obtain ⟨n, hn, hat⟩ := ih h
        exact ⟨n + 1, Nat.succ_lt_succ hn, (stopsAt_succ hread hc hp).mpr hat⟩

/-! ## The format of `sys_cputs` -/

/-- The blanks behind `n` characters: the width started at zero. -/
def padding (n : ℕ) : ℕ := (0#32 - BitVec.ofNat 32 n).toInt.toNat

theorem padding_eq (hn : n < 2 ^ 32) : padding n = if n ≤ 2 ^ 31 then 0 else 2 ^ 32 - n := by
  unfold padding
  rw [BitVec.toInt_eq_toNat_cond, BitVec.toNat_sub, BitVec.toNat_ofNat, Nat.mod_eq_of_lt hn]
  simp only [BitVec.toNat_ofNat]
  split <;> split <;> omega

/-- **What `"%.*s"` prints, and when it returns.** -/
theorem vprintfmt_cputs_iff (P : List ℤ → Prop) :
    (∃ q : Run × List ℤ, vprintfmt snoc m args (str "%.*s") (⟨0, []⟩, []) = .ok () q ∧ P q.2) ↔
      ∃ n < 2 ^ 32, StopsAt m (stringAt (args 1)) (args 0) n ∧
        P (chars m (stringAt (args 1)) n ++ List.replicate (padding n) ((chr ' ').toNat : ℤ)) := by
  have hrun : ∀ n < 2 ^ 32, StopsAt m (stringAt (args 1)) (args 0) n →
      ∃ r, vprintfmt snoc m args (str "%.*s") (⟨0, []⟩, []) = .ok () (r,
        chars m (stringAt (args 1)) n ++ List.replicate (padding n) ((chr ' ').toNat : ℤ)) := by
    intro n hn hat
    obtain ⟨r, hloop⟩ : ∃ r, strLoop snoc m false (2 ^ 32) (stringAt (args 1)) (args 0) 0#32
        (⟨2, []⟩, []) = .ok (0#32 - BitVec.ofNat 32 n) (r, [] ++ chars m (stringAt (args 1)) n) :=
      strLoop_of_stopsAt hat hn ⟨2, []⟩ []
    refine ⟨r, ?_⟩
    rw [vprintfmt_cputs _ _ rfl, bind_apply, hloop]
    dsimp only
    rw [putTimes_snoc, List.nil_append]
    rfl
  constructor
  · rintro ⟨q, hq, hP⟩
    have hq' := hq
    rw [vprintfmt_cputs _ _ rfl] at hq'
    obtain ⟨w, q', hloop, -⟩ := bind_eq_ok hq'
    obtain ⟨n, hn, hat⟩ := stopsAt_of_strLoop hloop
    obtain ⟨r, hr⟩ := hrun n hn hat
    rw [hr] at hq
    obtain ⟨-, rfl⟩ := EStateM.Result.ok.inj hq
    exact ⟨n, hn, hat, hP⟩
  · rintro ⟨n, hn, hat, hP⟩
    obtain ⟨r, hr⟩ := hrun n hn hat
    exact ⟨_, hr, hP⟩

end

end Printfmt

namespace Kernel

open Printfmt

variable {s : Kernel} {c d : ℕ} {str len : Word}

/-! ## The system call -/

/-- The bytes of the range. -/
def rangeBytes (s : Kernel) (str len : Word) : List (BitVec 8) :=
  (List.range len.toNat).map fun i => (s.peekByte (str + BitVec.ofNat 32 i)).getD 0#8

/-- `sys_cputs` returns, and the console has got the bytes of the range and no others. -/
structure CputsEmits (s : Kernel) (str len : Word) : Prop where
  passes : s.sysCputs str len = .ok (.ret 0, s)
  emits : ∃ q, cputsPrint s str len = .ok () q ∧
    q.2.sent.map (BitVec.ofInt 8) = rangeBytes s str len

/-- The range is printed as it is.  The check of an empty range looks at the page of an
address inside a page, unless that is the last one; a null pointer prints the constant of
the formatter; every other range must not contain a zero, the byte behind it must be there,
and its length may be `2 ^ 31` only if that byte is zero. -/
structure EmitsWhen (s : Kernel) (c d : ℕ) (str len : Word) : Prop where
  empty : len = 0#32 → (s.envs c).envTf.tfCs &&& 3#16 = 0#16 ∨ str.toNat % 4096 = 0 ∨
    2 ^ 32 ≤ str.toNat + 4095 ∨ Granted s d pteU (pgnum str)
  null : str = 0#32 → len.toNat ≤ 6 ∧ ∀ i < len.toNat,
    s.peekByte (str + BitVec.ofNat 32 i) = some ((Printfmt.str "(null)").getD i 0#8)
  text : str ≠ 0#32 → len.toNat ≤ 2 ^ 31 ∧
    (∀ i < len.toNat, s.peekByte (str + BitVec.ofNat 32 i) ≠ some 0#8) ∧
    ∃ b, s.peekByte (str + len) = some b ∧ (len.toNat = 2 ^ 31 → b = 0#8)

/-- What reaches the console is what the formatter emits. -/
theorem emits_iff (s : Kernel) (str len : Word) (P : List ℤ → Prop) :
    (∃ q, cputsPrint s str len = .ok () q ∧ P q.2.sent) ↔
      ∃ n < 2 ^ 32, StopsAt s.peekByte (stringAt str) len n ∧
        P (chars s.peekByte (stringAt str) n ++
          List.replicate (padding n) ((chr ' ').toNat : ℤ)) := by
  have hrun : cputsPrint s str len = withSink (pour KernConsole.putch ⟨[], 0#32⟩)
      (vprintfmt snoc s.peekByte (cputsArgs str len) (Printfmt.str "%.*s") (⟨0, []⟩, [])) :=
    (follows_vprintfmt (Printfmt.str "%.*s")).run ⟨0, []⟩ []
  have hargs : cputsArgs str len 1 = str ∧ cputsArgs str len 0 = len := ⟨rfl, rfl⟩
  have hlist := @vprintfmt_cputs_iff s.peekByte (cputsArgs str len) P
  rw [hargs.1, hargs.2] at hlist
  rw [← hlist, hrun]
  cases vprintfmt snoc s.peekByte (cputsArgs str len) (Printfmt.str "%.*s") (⟨0, []⟩, []) with
  | error e q => exact iff_of_false (fun ⟨_, h, _⟩ => nomatch h) fun ⟨_, h, _⟩ => nomatch h
  | ok a q =>
    rw [withSink, pour_kern]
    constructor
    · rintro ⟨q', hq, hP⟩
      obtain ⟨-, rfl⟩ := EStateM.Result.ok.inj hq
      exact ⟨q, rfl, hP⟩
    · rintro ⟨q', hq, hP⟩
      obtain ⟨-, rfl⟩ := EStateM.Result.ok.inj hq
      exact ⟨_, rfl, hP⟩

theorem map_ofInt_chars (m : Word → Option (BitVec 8)) (p : Loc) (n : ℕ) :
    (chars m p n).map (BitVec.ofInt 8) =
      (List.range n).map fun i => ((p.after i).read m).getD 0#8 := by
  rw [chars, List.map_map]
  refine List.map_congr_left fun i _ => ?_
  exact BitVec.ofInt_toInt

/-- **Exactly the length is printed only if the loop stops behind the range**, and a length
beyond `2 ^ 31` is made up with blanks to `2 ^ 32`. -/
theorem emits_rangeBytes_iff (s : Kernel) (str len : Word) :
    (∃ q, cputsPrint s str len = .ok () q ∧
      q.2.sent.map (BitVec.ofInt 8) = rangeBytes s str len) ↔
      len.toNat ≤ 2 ^ 31 ∧ StopsAt s.peekByte (stringAt str) len len.toNat ∧
        ∀ i < len.toNat, (((stringAt str).after i).read s.peekByte).getD 0#8 =
          (s.peekByte (str + BitVec.ofNat 32 i)).getD 0#8 := by
  have hlt := len.isLt
  rw [emits_iff s str len fun l => l.map (BitVec.ofInt 8) = rangeBytes s str len]
  constructor
  · rintro ⟨n, hn, hat, heq⟩
    have hlen := congrArg List.length heq
    rw [List.length_map, List.length_append, length_chars, List.length_replicate, rangeBytes,
      List.length_map, List.length_range, padding_eq hn] at hlen
    have hle : n ≤ 2 ^ 31 := by
      split at hlen <;> omega
    rw [if_pos hle] at hlen
    obtain rfl : n = len.toNat := by omega
    refine ⟨hle, hat, fun i hi => ?_⟩
    rw [padding_eq hn, if_pos hle, List.replicate_zero, List.append_nil, map_ofInt_chars,
      rangeBytes] at heq
    exact List.map_inj_left.mp heq i (List.mem_range.mpr hi)
  · rintro ⟨hle, hat, heq⟩
    refine ⟨len.toNat, hlt, hat, ?_⟩
    rw [padding_eq hlt, if_pos hle, List.replicate_zero, List.append_nil, map_ofInt_chars,
      rangeBytes]
    exact List.map_inj_left.mpr fun i hi => heq i (List.mem_range.mp hi)

/-! ### The string -/

/-- A pointer that is not null. -/
theorem stopsAt_text_iff (hlen : len.toNat ≤ 2 ^ 31) (h0 : str ≠ 0#32)
    (hb : ∀ i < len.toNat, ∃ b, s.peekByte (str + BitVec.ofNat 32 i) = some b) :
    StopsAt s.peekByte (stringAt str) len len.toNat ↔
      (∀ i < len.toNat, s.peekByte (str + BitVec.ofNat 32 i) ≠ some 0#8) ∧
      ∃ b, s.peekByte (str + len) = some b ∧ (len.toNat = 2 ^ 31 → b = 0#8) := by
  have hstr : stringAt str = .mem str := if_neg h0
  have hbehind : (Loc.mem str).after len.toNat = .mem (str + len) := by
    rw [Loc.after, BitVec.ofNat_toNat, BitVec.setWidth_eq]
  have hint : len.toInt = len.toNat ↔ len.toNat ≠ 2 ^ 31 := by
    rw [BitVec.toInt_eq_toNat_cond]
    split <;> omega
  rw [hstr]
  constructor
  · rintro ⟨hbefore, -, b, hread, hstop⟩
    rw [hbehind] at hread
    refine ⟨fun i hi hz => ?_, b, hread, fun hmax => hstop.resolve_right fun h => hint.mp h hmax⟩
    obtain ⟨b', hread', hne⟩ := hbefore i hi
    exact hne (Option.some.inj (hread'.symm.trans hz))
  · rintro ⟨hne, b, hread, hmax⟩
    refine ⟨fun i hi => ?_, (toInt_len len).imp id ge_of_eq, b, ?_, ?_⟩
    · obtain ⟨b', hread'⟩ := hb i hi
      refine ⟨b', hread', ?_⟩
      rintro rfl
      exact hne i hi hread'
    · rw [hbehind]
      exact hread
    · rw [hint]
      exact (eq_or_ne len.toNat (2 ^ 31)).imp hmax id

/-- The null pointer. -/
theorem stopsAt_null_iff :
    StopsAt s.peekByte (stringAt 0#32) len len.toNat ↔ len.toNat ≤ 6 := by
  have hnull : ∀ i < 6, (Printfmt.str "(null)").getD i 0#8 ≠ 0#8 := by decide
  have hint (h : len.toNat ≤ 6) : len.toInt = len.toNat := by
    rw [BitVec.toInt_eq_toNat_cond, if_pos (by omega)]
  rw [stringAt, if_pos rfl]
  constructor
  · intro h
    by_contra hlt
    obtain ⟨b, hread, hne⟩ := h.before 6 (by omega)
    exact hne (Option.some.inj hread).symm
  · intro h
    refine ⟨fun i hi => ⟨_, rfl, ?_⟩, Or.inr (hint h).ge, _, rfl, Or.inr (hint h)⟩
    rw [Nat.zero_add]
    exact hnull i (by omega)

/-- **The range is printed as it is exactly when the pointer and the bytes allow it.** -/
theorem emits_iff_text
    (hb : ∀ i < len.toNat, ∃ b, s.peekByte (str + BitVec.ofNat 32 i) = some b) :
    (∃ q, cputsPrint s str len = .ok () q ∧
      q.2.sent.map (BitVec.ofInt 8) = rangeBytes s str len) ↔
      (str = 0#32 → len.toNat ≤ 6 ∧ ∀ i < len.toNat,
        s.peekByte (str + BitVec.ofNat 32 i) = some ((Printfmt.str "(null)").getD i 0#8)) ∧
      (str ≠ 0#32 → len.toNat ≤ 2 ^ 31 ∧
        (∀ i < len.toNat, s.peekByte (str + BitVec.ofNat 32 i) ≠ some 0#8) ∧
        ∃ b, s.peekByte (str + len) = some b ∧ (len.toNat = 2 ^ 31 → b = 0#8)) := by
  rw [emits_rangeBytes_iff]
  rcases eq_or_ne str 0#32 with rfl | h0
  · have hbyte : ∀ i < len.toNat, ((((stringAt 0#32).after i).read s.peekByte).getD 0#8 =
        (s.peekByte (0#32 + BitVec.ofNat 32 i)).getD 0#8 ↔
        s.peekByte (0#32 + BitVec.ofNat 32 i) =
          some ((Printfmt.str "(null)").getD i 0#8)) := by
      intro i hi
      obtain ⟨b, hread⟩ := hb i hi
      rw [hread, stringAt, if_pos rfl, Loc.after, Loc.read, Nat.zero_add]
      exact ⟨fun h => congrArg some h.symm, fun h => (Option.some.inj h).symm⟩
    rw [stopsAt_null_iff]
    constructor
    · rintro ⟨-, hle, heq⟩
      exact ⟨fun _ => ⟨hle, fun i hi => (hbyte i hi).mp (heq i hi)⟩, fun h => absurd rfl h⟩
    · rintro ⟨h, -⟩
      obtain ⟨hle, heq⟩ := h rfl
      exact ⟨by omega, hle, fun i hi => (hbyte i hi).mpr (heq i hi)⟩
  · constructor
    · rintro ⟨hle, hat, -⟩
      exact ⟨fun h => absurd h h0, fun _ => ⟨hle, (stopsAt_text_iff hle h0 hb).mp hat⟩⟩
    · rintro ⟨-, h⟩
      obtain ⟨hle, hat⟩ := h h0
      refine ⟨hle, (stopsAt_text_iff hle h0 hb).mpr hat, fun i _ => ?_⟩
      rw [stringAt, if_neg h0]
      rfl

/-! ### The check -/

/-- A range that can be read does not reach beyond `ULIM`. -/
theorem fits_of_readable (hpos : 0 < len.toNat)
    (hread : ∀ i < len.toNat, Granted s d pteU (pgnum (str + BitVec.ofNat 32 i))) :
    str.toNat + len.toNat ≤ ulim.toNat := by
  by_contra hover
  have hlt := len.isLt
  have hul := toNat_ulim
  -- The first byte at or above `ULIM`.
  obtain ⟨i, hi, hge⟩ : ∃ i < len.toNat, ulim.toNat ≤ (str + BitVec.ofNat 32 i).toNat := by
    refine ⟨ulim.toNat - str.toNat, by omega, ?_⟩
    have := str.isLt
    rw [toNat_add_ofNat (by omega)]
    omega
  have hbelow := (hread i hi).1
  rw [pgnum_eq, pgnum_eq] at hbelow
  omega

/-- The sum that is rounded up wraps, and the loop has nothing to do. -/
theorem userMemCheck_of_wrap {e : ℕ} {perm : Word} (h : 2 ^ 32 ≤ str.toNat + 4095) :
    s.userMemCheck e str 0#32 perm = .ok (0, s) := by
  have hpg : (BitVec.ofNat 32 pgsize).toNat = 4096 := by decide
  have hstop := toNat_roundup_of_wrap h
  unfold userMemCheck
  dsimp only
  rw [BitVec.add_zero, if_neg]
  · rfl
  · rw [BitVec.lt_def, toNat_rounddown, hpg]
    omega

theorem userMemAssert_of_check {e : ℕ} {perm : Word}
    (h : s.userMemCheck e str len (perm ||| pteU) = .ok (0, s)) :
    s.userMemAssert e str len perm = .ok (.ret 0, s) := by
  unfold userMemAssert
  rw [h, ok_bind]
  rfl

/-- **The range passes the check** if it is not empty, and otherwise if the page it begins in
is not looked at or is granted. -/
theorem userMemAssert_iff (hc : s.curenv = some c) (hd : (s.envs c).envPgdir = some d)
    (hwin : ∀ k, pagesOf str len k → InWindow s d k)
    (hread : ∀ i < len.toNat, Granted s d pteU (pgnum (str + BitVec.ofNat 32 i))) :
    s.userMemAssert c str len 0#32 = .ok (.ret 0, s) ↔
      (len = 0#32 → str.toNat % 4096 = 0 ∨ 2 ^ 32 ≤ str.toNat + 4095 ∨
        Granted s d pteU (pgnum str)) := by
  have hperm : (0#32 ||| pteU) = pteU := by decide
  have hul := toNat_ulim
  rcases eq_or_ne len 0#32 with rfl | hne
  · have hz : (0#32).toNat = 0 := rfl
    constructor
    · intro h _
      by_contra hnot
      obtain ⟨hal, hfit, hgr⟩ : _ ∧ _ ∧ _ := by simpa only [not_or] using hnot
      refine hgr ?_
      obtain ⟨hchk, -⟩ := userMemCheck_of_userMemAssert hc h
      rw [hperm] at hchk
      refine granted_of_userMemCheck hd (by omega) hchk ?_
      rw [pagesOf, pgnum_eq]
      omega
    · intro h
      refine userMemAssert_of_check ?_
      rw [hperm]
      by_cases hfit : 2 ^ 32 ≤ str.toNat + 4095
      · exact userMemCheck_of_wrap hfit
      refine userMemCheck_of_granted hd (by omega) hwin fun k hk => ?_
      unfold pagesOf at hk
      rcases h rfl with hal | hwrap | hgr
      · omega
      · exact absurd hwrap hfit
      · obtain rfl : k = pgnum str := by
          rw [pgnum_eq]
          omega
        exact hgr
  · refine iff_of_true ?_ fun h => absurd h hne
    have hpos : 0 < len.toNat := by
      rcases Nat.eq_zero_or_pos len.toNat with h | h
      · exact absurd (BitVec.eq_of_toNat_eq h) hne
      · exact h
    have hfits := fits_of_readable hpos hread
    refine userMemAssert_of_check ?_
    rw [hperm]
    refine userMemCheck_of_granted hd (by omega) hwin fun k hk => ?_
    -- A byte of the range in page `k`.
    unfold pagesOf at hk
    obtain ⟨i, hi, hik⟩ : ∃ i < len.toNat, (str.toNat + i) / 2 ^ 12 = k := by
      by_cases hfirst : str.toNat / 4096 = k
      · exact ⟨0, hpos, hfirst⟩
      · exact ⟨4096 * k - str.toNat, by omega, by omega⟩
    have hgr := hread i hi
    rw [pgnum_eq, toNat_add_ofNat (by omega), hik] at hgr
    exact hgr

/-- **`sys_cputs` prints a range that can be read exactly when `EmitsWhen` says so.** -/
theorem cputsEmits_iff (hc : s.curenv = some c) (hd : (s.envs c).envPgdir = some d)
    (hcr3 : s.thiscpu.cr3 = d) (hwin : ∀ k, pagesOf str len k → InWindow s d k)
    (hread : ∀ i < len.toNat, Granted s d pteU (pgnum (str + BitVec.ofNat 32 i))) :
    CputsEmits s str len ↔ EmitsWhen s c d str len := by
  have hpasses : s.sysCputs str len = .ok (.ret 0, s) ↔
      (len = 0#32 → (s.envs c).envTf.tfCs &&& 3#16 = 0#16 ∨ str.toNat % 4096 = 0 ∨
        2 ^ 32 ≤ str.toNat + 4095 ∨ Granted s d pteU (pgnum str)) := by
    unfold sysCputs
    rw [hc, deref_some, ok_bind]
    by_cases hcs : (s.envs c).envTf.tfCs &&& 3#16 = 0#16
    · rw [if_neg (not_not.mpr hcs)]
      exact iff_of_true rfl fun _ => Or.inl hcs
    · rw [if_pos hcs, userMemAssert_iff hc hd hwin hread]
      simp only [hcs, false_or]
  have htext := emits_iff_text fun i hi => peekByte_of_granted hcr3 (hread i hi)
  constructor
  · rintro ⟨hpass, hemit⟩
    exact ⟨hpasses.mp hpass, (htext.mp hemit).1, (htext.mp hemit).2⟩
  · rintro ⟨hempty, hnull, hrest⟩
    exact ⟨hpasses.mpr hempty, htext.mpr ⟨hnull, hrest⟩⟩

/-! ### A text in the middle of a page -/

/-- `onePage` with the text `hi` at its beginning. -/
def greeting : Kernel :=
  { onePage with phys := fun f i => if f = 4 ∧ i = 0 then 0x6968#32 else onePage.phys f i }

theorem cputsEmits_iff_greeting : CputsEmits greeting 0x1000#32 2#32 := by
  have h1 : (0x1000#32).toNat = 4096 := rfl
  have h2 : (2#32).toNat = 2 := rfl
  have hbytes : greeting.peekByte 0x1000#32 = some 0x68#8 ∧
      greeting.peekByte 0x1001#32 = some 0x69#8 ∧ greeting.peekByte 0x1002#32 = some 0#8 := by
    decide
  refine (cputsEmits_iff (s := greeting) (c := 0) (d := 2) rfl rfl rfl (fun k hk => ?_)
    fun i hi => ?_).mpr ⟨fun h => absurd h (by decide), fun h => absurd h (by decide), fun _ => ?_⟩
  · obtain rfl : k = 1 := by
      unfold pagesOf at hk
      omega
    exact fun _ => by decide
  · have hpage : pgnum (0x1000#32 + BitVec.ofNat 32 i) = 1 := by
      have : i = 0 ∨ i = 1 := by omega
      rcases this with rfl | rfl <;> decide
    rw [hpage]
    exact ⟨by decide, 0x4007#32, by decide, by decide⟩
  · refine ⟨by decide, fun i hi => ?_, 0#8, hbytes.2.2, fun _ => rfl⟩
    have : i = 0 ∨ i = 1 := by omega
    rcases this with rfl | rfl
    · exact fun h => absurd (hbytes.1.symm.trans h) (by decide)
    · exact fun h => absurd (hbytes.2.1.symm.trans h) (by decide)

/-- **A zero in the range ends the output**, here before its first byte. -/
theorem not_cputsEmits :
    ¬ ∀ (s : Kernel) (c d : ℕ) (str len : Word), s.curenv = some c →
      (s.envs c).envPgdir = some d → s.thiscpu.cr3 = d →
      (∀ k, pagesOf str len k → InWindow s d k) →
      (∀ i < len.toNat, Granted s d pteU (pgnum (str + BitVec.ofNat 32 i))) →
      CputsEmits s str len := by
  intro hall
  have h1 : (0x1FFE#32).toNat = 8190 := rfl
  have h2 : (2#32).toNat = 2 := rfl
  have hread : ∀ i < (2#32).toNat,
      Granted onePage 2 pteU (pgnum (0x1FFE#32 + BitVec.ofNat 32 i)) := by
    intro i hi
    have hpage : pgnum (0x1FFE#32 + BitVec.ofNat 32 i) = 1 := by
      have : i = 0 ∨ i = 1 := by omega
      rcases this with rfl | rfl <;> decide
    rw [hpage]
    exact ⟨by decide, 0x4007#32, by decide, by decide⟩
  have hemits := (hall onePage 0 2 0x1FFE#32 2#32 rfl rfl rfl (fun k hk => by
    obtain rfl : k = 1 := by
      unfold pagesOf at hk
      omega
    exact fun _ => by decide) hread).emits
  have htext := (emits_iff_text fun i hi => peekByte_of_granted rfl (hread i hi)).mp hemits
  have hzero : onePage.peekByte (0x1FFE#32 + BitVec.ofNat 32 0) = some 0#8 := by decide
  exact (htext.2 (by decide)).2.1 0 (by decide) hzero

end Kernel
end PmakeOs
