import PmakeOs.Machine.Mmu
import Mathlib.Data.List.Basic
import Mathlib.Algebra.Order.Ring.Int

/-!
# `lib/readline.c`: the line editor

`readline` fills a static buffer from `getchar`, and echoes what it does.  It is compared with
an editor that keeps a list of characters: both backspace and delete take the last character
away if there is one, and everything from the blank on that is neither is appended while there
is room.

The two differ in one place.  The branch for the two deleting characters also asks that the
line is not empty, so a delete on an empty line goes on to the next branch, and being larger
than a blank it is appended there.  A backspace is smaller and is ignored as intended.
-/

namespace PmakeOs
namespace Readline

/-- `BUFLEN` -/
def bufLen : ℕ := 1024

/-- `iscons`, for the kernel. -/
def iscons (_fdnum : ℕ) : Bool := true

/-- The variables of `readline`: the length of the line, the buffer, what was sent to the
console, and the places in the buffer that were stored to. -/
structure Reading where
  i : ℕ
  buf : ℕ → BitVec 8
  sent : List ℤ
  stores : List ℕ

/-- `if (echoing) cputchar(c)` -/
def Reading.cputchar (echoing : Bool) (c : ℤ) (s : Reading) : Reading :=
  if echoing then { s with sent := s.sent ++ [c] } else s

/-- `buf[i] = c` -/
def Reading.store (c : BitVec 8) (s : Reading) : Reading :=
  { s with buf := Function.update s.buf s.i c, stores := s.i :: s.stores }

/-- How `readline` ends. -/
inductive Outcome where
  /-- `getchar` still waits for a character. -/
  | waits (s : Reading)
  /-- `getchar` failed: the code is reported on the console and the result is `NULL`. -/
  | fails (c : ℤ) (s : Reading)
  /-- The result is `buf`. -/
  | returns (s : Reading)

/-- The loop of `readline`, over the values that `getchar` returns. -/
def loop (echoing : Bool) : List ℤ → Reading → Outcome
  | [], s => .waits s
  | c :: cs, s =>
    if c < 0 then .fails c s
    else if (c = 8 ∨ c = 127) ∧ 0 < s.i then
      let s := s.cputchar echoing 8
      loop echoing cs { s with i := s.i - 1 }
    else if 32 ≤ c ∧ s.i < bufLen - 1 then
      let s := (s.cputchar echoing c).store (BitVec.ofInt 8 c)
      loop echoing cs { s with i := s.i + 1 }
    else if c = 10 ∨ c = 13 then
      .returns ((s.cputchar echoing 10).store 0#8)
    else loop echoing cs s

/-- `readline`, with whatever the buffer held before and the characters of the prompt. -/
def readline (prompt : Option (List ℤ)) (buf : ℕ → BitVec 8) (input : List ℤ) : Outcome :=
  loop (iscons 0) input ⟨0, buf, prompt.getD [], []⟩

/-! ## The editor -/

/-- The characters that delete. -/
abbrev Deletes (c : ℤ) : Prop := c = 8 ∨ c = 127

/-- The characters that end the line. -/
abbrev EndsLine (c : ℤ) : Prop := c = 10 ∨ c = 13

/-- A line editor: the line after one more character, and what is echoed for that character. -/
structure Editor where
  edit : List ℤ → ℤ → List ℤ
  answer : List ℤ → ℤ → List ℤ

/-- The line after a sequence of characters. -/
def Editor.line (e : Editor) (line cs : List ℤ) : List ℤ := cs.foldl e.edit line

/-- All that is echoed for a sequence of characters. -/
def Editor.answers (e : Editor) : List ℤ → List ℤ → List ℤ
  | _, [] => []
  | line, c :: cs => e.answer line c ++ e.answers (e.edit line c) cs

/-- The intended editor.  Both deleting characters take the last character away, other
characters from the blank on are appended while fewer than `BUFLEN - 1` are kept, and the
edits that change the line are echoed. -/
def intended : Editor where
  edit line c :=
    if Deletes c then line.dropLast
    else if 32 ≤ c ∧ line.length < bufLen - 1 then line ++ [c]
    else line
  answer line c :=
    if Deletes c then (if line = [] then [] else [8])
    else if 32 ≤ c ∧ line.length < bufLen - 1 then [c]
    else []

/-- The line on a display: a backspace takes the last character away, every other character
is shown. -/
def display (shown sent : List ℤ) : List ℤ :=
  sent.foldl (fun shown c => if c = 8 then shown.dropLast else shown ++ [c]) shown

/-- The characters before the first one that ends the line. -/
def keys : List ℤ → List ℤ
  | [] => []
  | c :: cs => if EndsLine c then [] else c :: keys cs

theorem keys_of_endsLine {c : ℤ} (h : EndsLine c) (cs : List ℤ) : keys (c :: cs) = [] := if_pos h

theorem keys_of_not_endsLine {c : ℤ} (h : ¬ EndsLine c) (cs : List ℤ) :
    keys (c :: cs) = c :: keys cs := if_neg h

/-- The buffer holds a line. -/
def Holds (buf : ℕ → BitVec 8) (line : List ℤ) : Prop :=
  ∀ k (hk : k < line.length), buf k = BitVec.ofInt 8 (line.get ⟨k, hk⟩)

/-- `readline` returns the line of the intended editor, with a zero behind it, and echoes what
that editor echoes, so that the line is what is displayed. -/
def Faithful (prompt : Option (List ℤ)) (buf : ℕ → BitVec 8) (input : List ℤ) : Prop :=
  ∃ s, readline prompt buf input = .returns s ∧
    Holds s.buf (intended.line [] (keys input)) ∧
    s.buf (intended.line [] (keys input)).length = 0#8 ∧
    s.sent = prompt.getD [] ++ intended.answers [] (keys input) ++ [10] ∧
    display [] (intended.answers [] (keys input)) = intended.line [] (keys input)

/-! ## The editor that `readline` is -/

/-- The branches of the loop, on a line. -/
def actual : Editor where
  edit line c :=
    if Deletes c ∧ line ≠ [] then line.dropLast
    else if 32 ≤ c ∧ line.length < bufLen - 1 then line ++ [c]
    else line
  answer line c :=
    if Deletes c ∧ line ≠ [] then [8]
    else if 32 ≤ c ∧ line.length < bufLen - 1 then [c]
    else []

theorem holds_dropLast {buf : ℕ → BitVec 8} {line : List ℤ} (h : Holds buf line) :
    Holds buf line.dropLast := by
  intro k hk
  have hlt : k < line.length := by
    rw [List.length_dropLast] at hk
    omega
  rw [h k hlt]
  congr 1
  exact (List.getElem_dropLast hk).symm

theorem holds_store {buf : ℕ → BitVec 8} {line : List ℤ} (h : Holds buf line) (c : ℤ) :
    Holds (Function.update buf line.length (BitVec.ofInt 8 c)) (line ++ [c]) := by
  intro k hk
  rw [List.length_append, List.length_singleton] at hk
  rcases Nat.lt_succ_iff_lt_or_eq.mp hk with hlt | rfl
  · rw [Function.update_of_ne hlt.ne, h k hlt]
    congr 1
    exact (List.getElem_append_left hlt).symm
  · rw [Function.update_self]
    congr 1
    simp

/-- The state of the loop while the line is `line`. -/
structure Keeps (line : List ℤ) (s : Reading) : Prop where
  length : s.i = line.length
  holds : Holds s.buf line
  room : line.length < bufLen
  bounded : ∀ k ∈ s.stores, k < bufLen

/-- **The loop is that editor.**  It stops at the first character that ends the line, and all
its stores are inside the buffer. -/
theorem loop_returns {input line : List ℤ} {s : Reading} (h : Keeps line s)
    (hpos : ∀ c ∈ input, 0 ≤ c) (hend : ∃ c ∈ input, EndsLine c) :
    ∃ s', loop true input s = .returns s' ∧
      Holds s'.buf (actual.line line (keys input)) ∧
      s'.buf (actual.line line (keys input)).length = 0#8 ∧
      s'.sent = s.sent ++ actual.answers line (keys input) ++ [10] ∧
      ∀ k ∈ s'.stores, k < bufLen := by
  induction input generalizing line s with
  | nil =>
    obtain ⟨c, hc, -⟩ := hend
    exact absurd hc List.not_mem_nil
  | cons c cs ih =>
    have hc : ¬ c < 0 := not_lt.mpr (hpos c List.mem_cons_self)
    rw [loop, if_neg hc]
    by_cases hstop : EndsLine c
    · -- neither of the branches for the line takes a character that ends it
      rw [keys_of_endsLine hstop, if_neg (by rcases hstop with rfl | rfl <;> omega),
        if_neg (by rcases hstop with rfl | rfl <;> omega), if_pos hstop]
      refine ⟨_, rfl, fun k hk => ?_, ?_, ?_, fun k hk => ?_⟩
      · show Function.update s.buf s.i 0#8 k = _
        rw [h.length, Function.update_of_ne (by exact hk.ne)]
        exact h.holds k hk
      · show Function.update s.buf s.i 0#8 line.length = _
        rw [h.length, Function.update_self]
      · show s.sent ++ [10] = s.sent ++ [] ++ [10]
        rw [List.append_nil]
      · rcases List.mem_cons.mp hk with rfl | hk
        · show s.i < bufLen
          rw [h.length]
          exact h.room
        · exact h.bounded k hk
    rw [keys_of_not_endsLine hstop]
    have hrest : ∃ c ∈ cs, EndsLine c := by
      obtain ⟨d, hd, hde⟩ := hend
      rcases List.mem_cons.mp hd with rfl | hd
      · exact absurd hde hstop
      · exact ⟨d, hd, hde⟩
    have hpos' : ∀ c ∈ cs, 0 ≤ c := fun d hd => hpos d (List.mem_cons_of_mem c hd)
    have hi : 0 < s.i ↔ line ≠ [] := by rw [h.length, List.length_pos_iff]
    -- what is left to show once the next state is known
    have next {line' : List ℤ} {s₁ : Reading} (hedit : actual.edit line c = line')
        (hsent : s₁.sent = s.sent ++ actual.answer line c) (h₁ : Keeps line' s₁) :
        ∃ s', loop true cs s₁ = .returns s' ∧
          Holds s'.buf (actual.line line (c :: keys cs)) ∧
          s'.buf (actual.line line (c :: keys cs)).length = 0#8 ∧
          s'.sent = s.sent ++ actual.answers line (c :: keys cs) ++ [10] ∧
          ∀ k ∈ s'.stores, k < bufLen := by
      obtain ⟨s', hloop, hholds, hzero, hsent', hbounded⟩ := ih h₁ hpos' hrest
      rw [← hedit] at hholds hzero hsent'
      refine ⟨s', hloop, hholds, hzero, ?_, hbounded⟩
      rw [hsent', hsent, Editor.answers, ← List.append_assoc]
    by_cases hdel : Deletes c ∧ line ≠ []
    · rw [if_pos ⟨hdel.1, hi.mpr hdel.2⟩]
      dsimp only
      refine next (if_pos hdel) ?_ ⟨?_, holds_dropLast h.holds, ?_, h.bounded⟩
      · show s.sent ++ [8] = s.sent ++ ite _ _ _
        rw [if_pos hdel]
      · show s.i - 1 = _
        rw [h.length, List.length_dropLast]
      · rw [List.length_dropLast]
        exact (Nat.sub_le _ _).trans_lt h.room
    rw [if_neg fun hd => hdel ⟨hd.1, hi.mp hd.2⟩]
    by_cases hadd : 32 ≤ c ∧ line.length < bufLen - 1
    · rw [if_pos ⟨hadd.1, by rw [h.length]; exact hadd.2⟩]
      dsimp only
      refine next ((if_neg hdel).trans (if_pos hadd)) ?_ ⟨?_, ?_, ?_, fun k hk => ?_⟩
      · show s.sent ++ [c] = s.sent ++ ite _ _ _
        rw [if_neg hdel, if_pos hadd]
      · show s.i + 1 = _
        rw [h.length, List.length_append, List.length_singleton]
      · show Holds (Function.update s.buf s.i _) _
        rw [h.length]
        exact holds_store h.holds c
      · rw [List.length_append, List.length_singleton]
        omega
      · rcases List.mem_cons.mp hk with rfl | hk
        · show s.i < bufLen
          rw [h.length]
          exact h.room
        · exact h.bounded k hk
    rw [if_neg fun ha => hadd ⟨ha.1, by rw [← h.length]; exact ha.2⟩, if_neg hstop]
    refine next ((if_neg hdel).trans (if_neg hadd)) ?_ h
    show s.sent = s.sent ++ ite _ _ _
    rw [if_neg hdel, if_neg hadd, List.append_nil]

/-! ## Where the two editors differ -/

theorem edit_eq {line : List ℤ} {c : ℤ} (h : ¬ (c = 127 ∧ line = [])) :
    actual.edit line c = intended.edit line c := by
  show ite _ _ _ = ite _ _ _
  by_cases hdel : Deletes c
  · rw [if_pos hdel]
    rcases eq_or_ne line [] with rfl | hline
    · obtain rfl : c = 8 := hdel.resolve_right fun hc => h ⟨hc, rfl⟩
      rfl
    · rw [if_pos ⟨hdel, hline⟩]
  · rw [if_neg hdel, if_neg fun hd => hdel hd.1]

theorem answer_eq {line : List ℤ} {c : ℤ} (h : ¬ (c = 127 ∧ line = [])) :
    actual.answer line c = intended.answer line c := by
  show ite _ _ _ = ite _ _ _
  by_cases hdel : Deletes c
  · rw [if_pos hdel]
    rcases eq_or_ne line [] with rfl | hline
    · obtain rfl : c = 8 := hdel.resolve_right fun hc => h ⟨hc, rfl⟩
      rfl
    · rw [if_pos ⟨hdel, hline⟩, if_neg hline]
  · rw [if_neg hdel, if_neg fun hd => hdel hd.1]

/-- The intended editor never shows a delete. -/
theorem not_mem_answer (line : List ℤ) (c : ℤ) : 127 ∉ intended.answer line c := by
  show 127 ∉ ite _ _ _
  split
  · split <;> simp
  · rename_i hdel
    split
    · rw [List.mem_singleton]
      rintro rfl
      exact hdel (Or.inr rfl)
    · exact List.not_mem_nil

theorem not_mem_answers (line cs : List ℤ) : 127 ∉ intended.answers line cs := by
  induction cs generalizing line with
  | nil => exact List.not_mem_nil
  | cons c cs ih =>
    rw [Editor.answers, List.mem_append]
    exact not_or.mpr ⟨not_mem_answer line c, ih _⟩

theorem display_answer (line : List ℤ) (c : ℤ) :
    display line (intended.answer line c) = intended.edit line c := by
  show display line (ite _ _ _) = ite _ _ _
  by_cases hdel : Deletes c
  · rw [if_pos hdel, if_pos hdel]
    split
    · rename_i hline
      rw [hline]
      rfl
    · rfl
  · rw [if_neg hdel, if_neg hdel]
    split
    · show ite _ _ _ = _
      rw [if_neg fun hc => hdel (Or.inl hc)]
    · rfl

/-- What the intended editor echoes displays its line. -/
theorem display_answers (line cs : List ℤ) :
    display line (intended.answers line cs) = intended.line line cs := by
  induction cs generalizing line with
  | nil => rfl
  | cons c cs ih =>
    rw [Editor.answers, display, List.foldl_append]
    show display (display line (intended.answer line c)) _ = _
    rw [display_answer, ih]
    rfl

/-- No delete comes while the line is empty. -/
def NoIdleDelete (line cs : List ℤ) : Prop :=
  ∀ pre, pre ++ [127] <+: cs → intended.line line pre ≠ []

theorem noIdleDelete_nil (line : List ℤ) : NoIdleDelete line [] := by
  intro pre hpre
  rw [List.prefix_nil, List.append_eq_nil_iff] at hpre
  exact absurd hpre.2 (List.cons_ne_nil _ _)

theorem noIdleDelete_cons (line : List ℤ) (c : ℤ) (cs : List ℤ) :
    NoIdleDelete line (c :: cs) ↔
      ¬ (c = 127 ∧ line = []) ∧ NoIdleDelete (intended.edit line c) cs := by
  constructor
  · intro h
    refine ⟨fun hc => h [] ?_ hc.2, fun pre hpre => h (c :: pre) ?_⟩
    · rw [hc.1, List.nil_append, List.cons_prefix_cons]
      exact ⟨rfl, List.nil_prefix⟩
    · rw [List.cons_append, List.cons_prefix_cons]
      exact ⟨rfl, hpre⟩
  · rintro ⟨hc, h⟩ pre hpre
    cases pre with
    | nil =>
      rw [List.nil_append, List.cons_prefix_cons] at hpre
      exact fun hline => hc ⟨hpre.1.symm, hline⟩
    | cons d pre =>
      rw [List.cons_append, List.cons_prefix_cons] at hpre
      obtain ⟨rfl, hpre⟩ := hpre
      exact h pre hpre

/-- As long as no delete comes on an empty line, the editors agree. -/
theorem line_eq {line cs : List ℤ} (h : NoIdleDelete line cs) :
    actual.line line cs = intended.line line cs := by
  induction cs generalizing line with
  | nil => rfl
  | cons c cs ih =>
    rw [noIdleDelete_cons] at h
    show actual.line (actual.edit line c) cs = intended.line (intended.edit line c) cs
    rw [edit_eq h.1]
    exact ih h.2

/-- **What is echoed tells the editors apart**, since one of them shows the delete. -/
theorem answers_eq_iff (line cs : List ℤ) :
    actual.answers line cs = intended.answers line cs ↔ NoIdleDelete line cs := by
  induction cs generalizing line with
  | nil => exact iff_of_true rfl (noIdleDelete_nil line)
  | cons c cs ih =>
    rw [noIdleDelete_cons]
    by_cases hc : c = 127 ∧ line = []
    · refine iff_of_false (fun heq => ?_) fun h => h.1 hc
      obtain ⟨rfl, rfl⟩ := hc
      have hmem : 127 ∈ actual.answers [] (127 :: cs) := by
        rw [Editor.answers]
        exact List.mem_append_left _ List.mem_cons_self
      rw [heq] at hmem
      exact not_mem_answers _ _ hmem
    · rw [Editor.answers, Editor.answers, answer_eq hc, edit_eq hc, List.append_right_inj, ih]
      exact (and_iff_right hc).symm

/-! ## The result -/

/-- **`readline` always returns, and stores inside its buffer only; it is the intended editor
exactly when no delete comes while the line is empty.** -/
theorem readline_faithful_iff (prompt : Option (List ℤ)) (buf : ℕ → BitVec 8) {input : List ℤ}
    (hpos : ∀ c ∈ input, 0 ≤ c) (hend : ∃ c ∈ input, EndsLine c) :
    (∃ s, readline prompt buf input = .returns s ∧ ∀ k ∈ s.stores, k < bufLen) ∧
      (Faithful prompt buf input ↔ NoIdleDelete [] (keys input)) := by
  have hstart : Keeps [] ⟨0, buf, prompt.getD [], []⟩ :=
    ⟨rfl, fun k hk => absurd hk (Nat.not_lt_zero k), by decide,
      fun k hk => absurd hk List.not_mem_nil⟩
  obtain ⟨s, hs, hholds, hzero, hsent, hbounded⟩ := loop_returns hstart hpos hend
  refine ⟨⟨s, hs, hbounded⟩, ?_⟩
  constructor
  · rintro ⟨s', hs', -, -, hsent', -⟩
    obtain rfl : s = s' := Outcome.returns.inj (hs.symm.trans hs')
    rw [hsent, List.append_left_inj, List.append_right_inj] at hsent'
    exact (answers_eq_iff _ _).mp hsent'
  · intro hno
    rw [line_eq hno] at hholds hzero
    rw [(answers_eq_iff _ _).mpr hno] at hsent
    exact ⟨s, hs, hholds, hzero, hsent, display_answers _ _⟩

/-- A letter, a delete and the end of the line. -/
theorem readline_faithful_iff_letter :
    Faithful none (fun _ => 0#8) [65, 127, 13] := by
  refine (readline_faithful_iff none (fun _ => 0#8) ?_ ?_).2.mpr ?_
  · decide
  · decide
  · show NoIdleDelete [] [65, 127]
    rw [noIdleDelete_cons, noIdleDelete_cons]
    exact ⟨by decide, by decide, noIdleDelete_nil _⟩

/-- **A delete at the start of a line is not ignored.** -/
theorem not_readline_faithful :
    ¬ ∀ (prompt : Option (List ℤ)) (buf : ℕ → BitVec 8) (input : List ℤ),
      (∀ c ∈ input, 0 ≤ c) → (∃ c ∈ input, EndsLine c) → Faithful prompt buf input := by
  intro hall
  obtain ⟨s, hs, -, hzero, -⟩ := hall none (fun _ => 0#8) [127, 13] (by decide) (by decide)
  obtain rfl := Outcome.returns.inj hs
  exact absurd hzero (by decide)

end Readline
end PmakeOs
