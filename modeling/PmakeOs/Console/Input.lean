import PmakeOs.Lib.Ring
import PmakeOs.Machine.Mmu
import Mathlib.Data.List.Induction

/-!
# `kern/console.c`: the input queue

Interrupts feed the characters of the keyboard and of the serial port into a ring of
`CONSBUFSIZE` bytes, and `cons_getc` takes them out.  A run is any sequence of the two; a call
of `cons_getc` first polls both devices, so characters may also arrive there.

Nothing keeps the writer from overtaking the reader.  Whenever that happens the ring loses
`CONSBUFSIZE` characters at once, and the reader goes on with the ones that came last.
-/

namespace PmakeOs
namespace Console

open Lib

/-- `CONSBUFSIZE` -/
def consBufSize : ℕ := 512

/-- `cons` -/
abbrev Cons := Ringbuf (BitVec 8)

/-- `cons`, as it is at the start. -/
def Cons.zero : Cons := ⟨fun _ => 0#8, 0, 0⟩

/-- `cons_intr`, over what `proc` returns until it has nothing more, which it says by `-1`. -/
def consIntr : List ℤ → Cons → Cons
  | [], s => s
  | c :: cs, s =>
    if c = -1 then s
    else if c = 0 then consIntr cs s
    else consIntr cs (s.push consBufSize (BitVec.ofInt 8 c))

/-- The end of `cons_getc`: the next character of the buffer, or zero. -/
def grab (s : Cons) : ℤ × Cons :=
  match s.pop consBufSize with
  | some (c, s) => (c.toNat, s)
  | none => (0, s)

/-- `cons_getc`, over what `serial_intr` and `kbd_intr` find when it polls them. -/
def consGetc (serial kbd : List ℤ) (s : Cons) : ℤ × Cons := grab (consIntr kbd (consIntr serial s))

/-! ## Runs -/

/-- What happens to the queue: an interrupt that delivers some bytes, or a call of `cons_getc`
that finds some bytes at the two devices. -/
inductive Event where
  | intr (batch : List (BitVec 8))
  | getc (serial kbd : List (BitVec 8))

/-- The values that `proc` returns for some bytes. -/
def values (batch : List (BitVec 8)) : List ℤ := batch.map fun c => (c.toNat : ℤ)

/-- The queue, and the characters that `cons_getc` has returned. -/
structure Session where
  cons : Cons
  returned : List (BitVec 8)

/-- One event.  A result of zero is no character. -/
def Session.step (e : Event) (s : Session) : Session :=
  match e with
  | .intr batch => { s with cons := consIntr (values batch) s.cons }
  | .getc serial kbd =>
    let (c, cons) := consGetc (values serial) (values kbd) s.cons
    ⟨cons, if c = 0 then s.returned else s.returned ++ [BitVec.ofInt 8 c]⟩

/-- The session after a sequence of events. -/
def session (es : List Event) : Session := es.foldl (fun s e => s.step e) ⟨.zero, []⟩

/-- The characters among some bytes. -/
def chars (batch : List (BitVec 8)) : List (BitVec 8) := batch.filter (· ≠ 0#8)

/-- The characters that an event delivers. -/
def Event.delivers : Event → List (BitVec 8)
  | .intr batch => chars batch
  | .getc serial kbd => chars serial ++ chars kbd

/-- The characters that a sequence of events delivers. -/
def delivered (es : List Event) : List (BitVec 8) := es.flatMap Event.delivers

/-- The results of a number of calls of `cons_getc` while nothing arrives. -/
def grabs : ℕ → Cons → List ℤ
  | 0, _ => []
  | k + 1, s => (grab s).1 :: grabs k (grab s).2

/-- At most 511 characters are ever unread: whatever an event delivers, together with what was
delivered before, is at most 511 more than was returned before that event. -/
def NeverFull (es : List Event) : Prop :=
  ∀ pre e, pre ++ [e] <+: es →
    (delivered (pre ++ [e])).length - (session pre).returned.length ≤ 511

/-! ## One event -/

/-- A batch is pushed without its zeros. -/
theorem tracks_consIntr {d r : List (BitVec 8)} {s : Cons} (h : Ringbuf.Tracks consBufSize d r s)
    (batch : List (BitVec 8)) :
    Ringbuf.Tracks consBufSize (d ++ chars batch) r (consIntr (values batch) s) := by
  induction batch generalizing d s with
  | nil =>
    show Ringbuf.Tracks consBufSize (d ++ []) r s
    rw [List.append_nil]
    exact h
  | cons c batch ih =>
    have hpos : ¬ (c.toNat : ℤ) = -1 := by omega
    have hvalues : values (c :: batch) = (c.toNat : ℤ) :: values batch := rfl
    rw [hvalues, consIntr, if_neg hpos]
    rcases eq_or_ne c 0#8 with rfl | hc
    · have hz : ((0#8).toNat : ℤ) = 0 := rfl
      rw [if_pos hz]
      exact ih h
    · have hnz : ¬ (c.toNat : ℤ) = 0 := fun hz => hc (BitVec.eq_of_toNat_eq (by simpa using hz))
      have hchars : chars (c :: batch) = c :: chars batch := List.filter_cons_of_pos (by simpa using hc)
      have hbyte : BitVec.ofInt 8 (c.toNat : ℤ) = c := by simp
      rw [if_neg hnz, hbyte, hchars, List.append_cons]
      exact ih (h.push (by decide) c)

theorem ne_zero_of_mem_chars {batch : List (BitVec 8)} {c : BitVec 8} (h : c ∈ chars batch) :
    c ≠ 0#8 := by
  have hc := (List.mem_filter.mp h).2
  simpa using hc

theorem ne_zero_of_mem_delivers {e : Event} {c : BitVec 8} (h : c ∈ e.delivers) : c ≠ 0#8 := by
  cases e with
  | intr batch => exact ne_zero_of_mem_chars h
  | getc serial kbd => exact (List.mem_append.mp h).elim ne_zero_of_mem_chars ne_zero_of_mem_chars

theorem ne_zero_of_mem_delivered {es : List Event} {c : BitVec 8} (h : c ∈ delivered es) :
    c ≠ 0#8 := by
  obtain ⟨e, -, hc⟩ := List.mem_flatMap.mp h
  exact ne_zero_of_mem_delivers hc

/-- What the end of `cons_getc` returns: the oldest character that is left, or zero. -/
theorem grab_eq {d r : List (BitVec 8)} {s : Cons} (h : Ringbuf.Tracks consBufSize d r s) :
    (Ringbuf.left consBufSize d r.length = [] ∧ grab s = (0, s)) ∨
    ∃ c l s', Ringbuf.left consBufSize d r.length = c :: l ∧ grab s = ((c.toNat : ℤ), s') ∧
      Ringbuf.Tracks consBufSize d (r ++ [c]) s' ∧
      Ringbuf.left consBufSize d (r ++ [c]).length = l := by
  cases hleft : Ringbuf.left consBufSize d r.length with
  | nil =>
    refine Or.inl ⟨rfl, ?_⟩
    rw [grab, h.pop_none hleft]
  | cons c l =>
    obtain ⟨s', hpop, hs', hl⟩ := h.pop_some (by decide) hleft
    refine Or.inr ⟨c, l, s', rfl, ?_, hs', hl⟩
    rw [grab, hpop]

theorem mem_of_left {d : List (BitVec 8)} {k : ℕ} {c : BitVec 8} {l : List (BitVec 8)}
    (h : Ringbuf.left consBufSize d k = c :: l) : c ∈ d :=
  List.mem_of_mem_drop (h ▸ List.mem_cons_self)

/-- What an event does to a session that has had the characters `d`: they become
`d ++ e.delivers`, and at most one more is returned, the oldest that is left then. -/
theorem step_cases {d : List (BitVec 8)} {s : Session} (e : Event)
    (h : Ringbuf.Tracks consBufSize d s.returned s.cons) (hd : ∀ c ∈ d, c ≠ 0#8) :
    Ringbuf.Tracks consBufSize (d ++ e.delivers) (s.step e).returned (s.step e).cons ∧
      ((s.step e).returned = s.returned ∨
        ∃ c l, Ringbuf.left consBufSize (d ++ e.delivers) s.returned.length = c :: l ∧
          (s.step e).returned = s.returned ++ [c]) := by
  cases e with
  | intr batch => exact ⟨tracks_consIntr h batch, Or.inl rfl⟩
  | getc serial kbd =>
    have hpoll := tracks_consIntr (tracks_consIntr h serial) kbd
    rw [List.append_assoc] at hpoll
    rcases grab_eq hpoll with ⟨-, hgrab⟩ | ⟨c, l, s', hleft, hgrab, hs', -⟩
    · rw [Session.step, consGetc, hgrab]
      dsimp only
      rw [if_pos rfl]
      exact ⟨hpoll, Or.inl rfl⟩
    · have hc : c ≠ 0#8 := by
        rcases List.mem_append.mp (mem_of_left hleft) with hmem | hmem
        · exact hd c hmem
        · exact (List.mem_append.mp hmem).elim ne_zero_of_mem_chars ne_zero_of_mem_chars
      have hnz : ¬ (c.toNat : ℤ) = 0 := fun hz => hc (BitVec.eq_of_toNat_eq (by simpa using hz))
      have hbyte : BitVec.ofInt 8 (c.toNat : ℤ) = c := by simp
      rw [Session.step, consGetc, hgrab]
      dsimp only
      rw [if_neg hnz, hbyte]
      exact ⟨hs', Or.inr ⟨c, l, hleft, rfl⟩⟩

/-! ## Every run -/

theorem session_snoc (es : List Event) (e : Event) : session (es ++ [e]) = (session es).step e := by
  rw [session, List.foldl_append]
  rfl

theorem delivered_snoc (es : List Event) (e : Event) :
    delivered (es ++ [e]) = delivered es ++ e.delivers := by
  rw [delivered, List.flatMap_append, List.flatMap_singleton]
  rfl

/-- The positions of the ring are those of what was delivered and returned. -/
theorem tracks_session (es : List Event) :
    Ringbuf.Tracks consBufSize (delivered es) (session es).returned (session es).cons := by
  induction es using List.reverseRecOn with
  | nil => exact Ringbuf.tracks_nil _ _
  | append_singleton es e ih =>
    rw [session_snoc, delivered_snoc]
    exact (step_cases e ih fun c hc => ne_zero_of_mem_delivered hc).1

/-- As long as at most 511 characters are unread, the characters returned are the first ones
delivered. -/
theorem prefix_of_neverFull {es : List Event} (h : NeverFull es) :
    (session es).returned <+: delivered es := by
  induction es using List.reverseRecOn with
  | nil => exact List.nil_prefix
  | append_singleton es e ih =>
    have hpre := ih fun pre e' hpre => h pre e' (hpre.trans (List.prefix_append _ _))
    have hroom := h es e List.prefix_rfl
    have ht := tracks_session es
    obtain ⟨-, hret⟩ := step_cases e ht fun c hc => ne_zero_of_mem_delivered hc
    have hpre' : (session es).returned <+: delivered es ++ e.delivers :=
      hpre.trans (List.prefix_append _ _)
    rw [session_snoc]
    rw [delivered_snoc] at hroom ⊢
    rcases hret with hret | ⟨c, l, hleft, hret⟩
    · rw [hret]
      exact hpre'
    · have hlt : (delivered es ++ e.delivers).length - (session es).returned.length < consBufSize :=
        Nat.lt_succ_of_le hroom
      rw [hret]
      rw [Ringbuf.left_of_lt hlt hpre'.length_le] at hleft
      obtain ⟨t, ht⟩ := hpre'
      rw [← ht, List.drop_left] at hleft
      rw [← ht, hleft]
      exact ⟨l, by rw [List.append_assoc, List.singleton_append]⟩

/-- Calls of `cons_getc` while nothing arrives return what is left, and then zeros. -/
theorem grabs_eq {d r : List (BitVec 8)} {s : Cons} (h : Ringbuf.Tracks consBufSize d r s) (k : ℕ) :
    grabs ((Ringbuf.left consBufSize d r.length).length + k) s =
      values (Ringbuf.left consBufSize d r.length) ++ List.replicate k 0 := by
  generalize hl : Ringbuf.left consBufSize d r.length = l
  induction l generalizing r s with
  | nil =>
    rw [List.length_nil, Nat.zero_add]
    obtain ⟨-, hgrab⟩ | ⟨c, l, s', hleft, -⟩ := grab_eq h
    · clear hl h
      induction k with
      | zero => rfl
      | succ k ih =>
        rw [grabs, hgrab, ih]
        rfl
    · rw [hl] at hleft
      cases hleft
  | cons c l ih =>
    rw [List.length_cons, Nat.add_right_comm]
    obtain ⟨hnil, -⟩ | ⟨c', l', s', hleft, hgrab, hs', hl'⟩ := grab_eq h
    · rw [hl] at hnil
      cases hnil
    · obtain ⟨rfl, rfl⟩ := List.cons.inj (hl.symm.trans hleft)
      rw [grabs, hgrab, ih hs' hl']
      rfl

/-- **The console's input.**  In every run the characters that `cons_getc` returns are some of
those delivered, in their order; they are the first ones delivered if at most 511 are ever
unread; and of those not returned, the latest ones are left, as many as there are modulo 512. -/
theorem consGetc_returns (es : List Event) :
    (session es).returned.Sublist (delivered es) ∧
    (NeverFull es → (session es).returned ++ (delivered es).drop (session es).returned.length =
      delivered es) ∧
    ∀ u, (session es).returned.length + u = (delivered es).length → ∀ k,
      grabs (u % 512 + k) (session es).cons =
        values ((delivered es).drop ((delivered es).length - u % 512)) ++ List.replicate k 0 := by
  have ht := tracks_session es
  refine ⟨ht.sublist.trans (List.take_sublist _ _), fun hfull => ?_, fun u hu k => ?_⟩
  · obtain ⟨l, hl⟩ := prefix_of_neverFull hfull
    rw [← hl, List.drop_left]
  · have hdiff : (delivered es).length - (session es).returned.length = u := by omega
    have hlen : (Ringbuf.left consBufSize (delivered es) (session es).returned.length).length =
        u % 512 := by
      have hmod := Nat.mod_le u 512
      rw [Ringbuf.left, List.length_drop, hdiff]
      show (delivered es).length - ((delivered es).length - u % 512) = u % 512
      omega
    have hgrabs := grabs_eq ht k
    rw [hlen, Ringbuf.left, hdiff] at hgrabs
    exact hgrabs

end Console
end PmakeOs
