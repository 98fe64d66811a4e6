import PmakeOs.Console.Typing

/-!
# From the keyboard to `readline`

Keys are struck, the keyboard controller collects the bytes, interrupts and calls of `cons_getc`
take them away at any time, `kbd_proc_data` decodes them, the ring keeps the characters, and
`readline` fills its buffer with what `cons_getc` returns.  If the strokes are regular and the ring
is not overrun, the line in the buffer is the line that was typed (`readline_typed`).
-/

namespace PmakeOs
namespace Keyboard

open Lib Console Readline

/-! ## The devices and the queue -/

/-- An interrupt of the keyboard, or a call of `cons_getc`, with the bytes that the controller
holds then. -/
inductive Arrival where
  | intr (bytes : List (BitVec 8))
  | getc (bytes : List (BitVec 8))

def Arrival.bytes : Arrival → List (BitVec 8)
  | .intr bytes | .getc bytes => bytes

/-- The variables of the driver and of the queue, and the characters that `cons_getc` has
returned. -/
structure Input where
  kbd : Kbd
  cons : Cons
  returned : List (BitVec 8)

def Input.zero : Input := ⟨.zero, .zero, []⟩

/-- One arrival.  The serial port is quiet. -/
def Input.step (s : Input) : Arrival → Input
  | .intr bytes =>
    let (kbd, cons) := kbdIntr (holding bytes) s.kbd s.cons
    ⟨kbd, cons, s.returned⟩
  | .getc bytes =>
    let (kbd, cons) := kbdIntr (holding bytes) s.kbd (consIntr [] s.cons)
    let (c, cons) := grab cons
    ⟨kbd, cons, if c = 0 then s.returned else s.returned ++ [BitVec.ofInt 8 c]⟩

/-- The input after some arrivals. -/
def input (l : List Arrival) : Input := l.foldl Input.step .zero

/-- What the queue sees of an arrival. -/
def Arrival.event (k : Kbd) : Arrival → Event
  | .intr bytes => .intr (decode bytes k).1
  | .getc bytes => .getc [] (decode bytes k).1

/-- What the queue sees of some arrivals. -/
def heard : List Arrival → Kbd → List Event
  | [], _ => []
  | a :: l, k => a.event k :: heard l (decode a.bytes k).2

theorem Input.step_eq (s : Input) (a : Arrival) :
    s.step a = ⟨(decode a.bytes s.kbd).2,
      (Session.step (a.event s.kbd) ⟨s.cons, s.returned⟩).cons,
      (Session.step (a.event s.kbd) ⟨s.cons, s.returned⟩).returned⟩ := by
  cases a with
  | intr bytes =>
    rw [Input.step, kbdIntr_holding]
    rfl
  | getc bytes =>
    rw [Input.step, kbdIntr_holding]
    rfl

/-- The input is a session of the queue. -/
theorem foldl_step_eq (l : List Arrival) (s : Input) :
    (⟨(l.foldl Input.step s).cons, (l.foldl Input.step s).returned⟩ : Session) =
      (heard l s.kbd).foldl (fun t e => t.step e) ⟨s.cons, s.returned⟩ := by
  induction l generalizing s with
  | nil => rfl
  | cons a l ih =>
    rw [List.foldl_cons, s.step_eq]
    exact ih _

theorem input_eq (l : List Arrival) :
    (input l).cons = (session (heard l .zero)).cons ∧
      (input l).returned = (session (heard l .zero)).returned :=
  ⟨congrArg Session.cons (foldl_step_eq l .zero), congrArg Session.returned (foldl_step_eq l .zero)⟩

/-- The characters of all bytes are delivered, wherever the arrivals cut them. -/
theorem delivered_heard (l : List Arrival) (k : Kbd) :
    delivered (heard l k) = chars (decode (l.flatMap Arrival.bytes) k).1 := by
  induction l generalizing k with
  | nil => rfl
  | cons a l ih =>
    have hevent : (a.event k).delivers = chars (decode a.bytes k).1 := by
      cases a with
      | intr bytes => rfl
      | getc bytes => exact List.nil_append _
    rw [heard, delivered, List.flatMap_cons, List.flatMap_cons, decode_append, chars_append,
      hevent, ← ih]
    rfl

/-! ## The line -/

/-- A printable character is neither a deletion nor the end of a line. -/
theorem printable {c : BitVec 8} (hlo : 32 ≤ c.toNat) (hhi : c.toNat < 127) :
    ¬ Deletes (c.toNat : ℤ) ∧ ¬ EndsLine (c.toNat : ℤ) ∧ (32 : ℤ) ≤ c.toNat := by
  unfold Deletes EndsLine
  omega

theorem keys_printable {text : List (BitVec 8)} (h : ∀ c ∈ text, 32 ≤ c.toNat ∧ c.toNat < 127) :
    keys (values (text ++ [10#8])) = values text := by
  induction text with
  | nil => rfl
  | cons c text ih =>
    obtain ⟨hlo, hhi⟩ := h c List.mem_cons_self
    have hend := (printable hlo hhi).2.1
    show keys ((c.toNat : ℤ) :: values (text ++ [10#8])) = _
    rw [keys_of_not_endsLine hend, ih fun c' hc' => h c' (List.mem_cons_of_mem c hc')]
    rfl

/-- Printable characters are appended and echoed while there is room. -/
theorem edit_printable {text : List (BitVec 8)} (h : ∀ c ∈ text, 32 ≤ c.toNat ∧ c.toNat < 127)
    (line : List ℤ) :
    actual.line line (values text) = line ++ values (text.take (bufLen - 1 - line.length)) ∧
      actual.answers line (values text) = values (text.take (bufLen - 1 - line.length)) := by
  induction text generalizing line with
  | nil =>
    rw [List.take_nil]
    exact ⟨(List.append_nil _).symm, rfl⟩
  | cons c text ih =>
    obtain ⟨hlo, hhi⟩ := h c List.mem_cons_self
    obtain ⟨hdel, -, hblank⟩ := printable hlo hhi
    have htext := fun c' hc' => h c' (List.mem_cons_of_mem c hc')
    have hdel' : ¬ (Deletes (c.toNat : ℤ) ∧ line ≠ []) := fun hd => hdel hd.1
    have hvalues : values (c :: text) = (c.toNat : ℤ) :: values text := rfl
    rw [hvalues, Editor.line, List.foldl_cons, Editor.answers]
    by_cases hroom : line.length < bufLen - 1
    · have hedit : actual.edit line c.toNat = line ++ [(c.toNat : ℤ)] :=
        (if_neg hdel').trans (if_pos ⟨hblank, hroom⟩)
      have hanswer : actual.answer line c.toNat = [(c.toNat : ℤ)] :=
        (if_neg hdel').trans (if_pos ⟨hblank, hroom⟩)
      obtain ⟨hline, hanswers⟩ := ih htext (line ++ [(c.toNat : ℤ)])
      have hsub : bufLen - 1 - line.length = bufLen - 1 - (line ++ [(c.toNat : ℤ)]).length + 1 := by
        rw [List.length_append, List.length_singleton]
        omega
      rw [hedit, hanswer, hanswers, hsub, List.take_succ_cons]
      refine ⟨hline.trans ?_, rfl⟩
      rw [List.append_assoc]
      rfl
    · have hedit : actual.edit line c.toNat = line :=
        (if_neg hdel').trans (if_neg fun hr => hroom hr.2)
      have hanswer : actual.answer line c.toNat = [] :=
        (if_neg hdel').trans (if_neg fun hr => hroom hr.2)
      obtain ⟨hline, hanswers⟩ := ih htext line
      have hzero : bufLen - 1 - line.length = 0 := by omega
      rw [hzero, List.take_zero] at hline hanswers
      rw [hedit, hanswer, hanswers, hzero, List.take_zero]
      exact ⟨hline, rfl⟩

/-- `readline` of a printable text. -/
theorem readline_printable {text : List (BitVec 8)}
    (h : ∀ c ∈ text, 32 ≤ c.toNat ∧ c.toNat < 127) (prompt : Option (List ℤ))
    (buf : ℕ → BitVec 8) :
    ∃ r, readline prompt buf (values (text ++ [10#8])) = .returns r ∧
      Holds r.buf (values (text.take (bufLen - 1))) ∧
      r.buf (values (text.take (bufLen - 1))).length = 0#8 ∧
      r.sent = prompt.getD [] ++ values (text.take (bufLen - 1)) ++ [10] := by
  have hstart : Keeps [] ⟨0, buf, prompt.getD [], []⟩ :=
    ⟨rfl, fun k hk => absurd hk (Nat.not_lt_zero k), by decide,
      fun k hk => absurd hk List.not_mem_nil⟩
  have hpos : ∀ c ∈ values (text ++ [10#8]), (0 : ℤ) ≤ c := by
    intro c hc
    obtain ⟨b, -, rfl⟩ := List.mem_map.mp hc
    exact Int.natCast_nonneg _
  have hend : ∃ c ∈ values (text ++ [10#8]), EndsLine c :=
    ⟨10, List.mem_map.mpr ⟨10#8, List.mem_append_right _ (List.mem_singleton_self _), rfl⟩,
      Or.inl rfl⟩
  obtain ⟨r, hr, hholds, hzero, hsent, -⟩ := loop_returns hstart hpos hend
  obtain ⟨hline, hanswers⟩ := edit_printable h []
  rw [keys_printable h, hline, List.nil_append] at hholds hzero
  rw [keys_printable h, hanswers] at hsent
  exact ⟨r, hr, hholds, hzero, hsent⟩

/-! ## The result -/

/-- What `cons_getc` has returned, and what it still returns while nothing arrives, if the ring is
not overrun. -/
theorem returned_append_grabs {es : List Event} (hfull : NeverFull es) (hne : es ≠ []) :
    values (session es).returned ++
        grabs ((delivered es).length - (session es).returned.length) (session es).cons =
      values (delivered es) := by
  obtain ⟨-, hdrop, hgrabs⟩ := consGetc_returns es
  have hpre := prefix_of_neverFull hfull
  obtain ⟨l, hl⟩ := hpre
  have hlen : (session es).returned.length + l.length = (delivered es).length := by
    rw [← hl, List.length_append]
  -- before the last event, no more had been returned
  have hroom : l.length ≤ 511 := by
    obtain ⟨pre, e, rfl⟩ : ∃ pre e, es = pre ++ [e] :=
      ⟨es.dropLast, es.getLast hne, (List.dropLast_append_getLast hne).symm⟩
    have hlast := hfull pre e List.prefix_rfl
    have hmono : (session pre).returned.length ≤ (session (pre ++ [e])).returned.length := by
      obtain ⟨-, hret⟩ := step_cases e (tracks_session pre) fun c hc => ne_zero_of_mem_delivered hc
      rw [session_snoc]
      rcases hret with hret | ⟨c, l', -, hret⟩
      · rw [hret]
      · rw [hret, List.length_append]
        omega
    omega
  have h := hgrabs l.length hlen 0
  rw [Nat.mod_eq_of_lt (by omega), Nat.add_zero, List.replicate_zero, List.append_nil] at h
  have hsub : (delivered es).length - (session es).returned.length = l.length := by omega
  have hsub' : (delivered es).length - l.length = (session es).returned.length := by omega
  rw [hsub, h, hsub', ← hl, List.drop_left]
  exact (List.map_append).symm

/-- **What is typed is what is read.**  Every line of printable characters can be typed, and
whenever regular strokes type it, then however the bytes arrive at the console, as long as the
ring is not overrun, `readline` returns the line, or its first `BUFLEN - 1` characters. -/
theorem readline_typed {text : List (BitVec 8)}
    (h : ∀ c ∈ text, 32 ≤ c.toNat ∧ c.toNat < 127) (prompt : Option (List ℤ))
    (buf : ℕ → BitVec 8) :
    (∃ es, Careful es ∧ (desk es).typed = text ++ [10#8]) ∧
      ∀ es l, Careful es → (desk es).typed = text ++ [10#8] →
        l.flatMap Arrival.bytes = bytesOf es → NeverFull (heard l .zero) →
        ∃ r, readline prompt buf (values (input l).returned ++
            grabs (text.length + 1 - (input l).returned.length) (input l).cons) = .returns r ∧
          Holds r.buf (values (text.take (bufLen - 1))) ∧
          r.buf (values (text.take (bufLen - 1))).length = 0#8 ∧
          r.sent = prompt.getD [] ++ values (text.take (bufLen - 1)) ++ [10] := by
  refine ⟨exists_careful h, fun es l hcareful htyped hbytes hfull => ?_⟩
  have hdelivered : delivered (heard l .zero) = text ++ [10#8] := by
    rw [delivered_heard, hbytes, ← htyped]
    exact hcareful.follows.typed
  have hne : heard l .zero ≠ [] := by
    intro h0
    rw [h0] at hdelivered
    exact absurd hdelivered.symm (by simp [delivered])
  have hlen : (delivered (heard l .zero)).length = text.length + 1 := by
    rw [hdelivered, List.length_append, List.length_singleton]
  obtain ⟨hcons, hreturned⟩ := input_eq l
  have hall := returned_append_grabs hfull hne
  rw [hlen, hdelivered] at hall
  rw [hcons, hreturned, hall]
  exact readline_printable h prompt buf

/-- A ring of 512 bytes is not overrun by 511 characters. -/
theorem neverFull_of_length {es : List Event} (h : (delivered es).length ≤ 511) : NeverFull es := by
  intro pre e hpre
  obtain ⟨t, rfl⟩ := hpre
  rw [delivered, List.flatMap_append, List.length_append] at h
  rw [delivered]
  omega

/-- `Hi`, in two interrupts with a call of `cons_getc` between them. -/
theorem readline_typed_hi : ∃ es l r,
    Careful es ∧ (desk es).typed = [0x48#8, 0x69#8, 10#8] ∧
    l = [.intr ((bytesOf es).take 4), .getc [], .intr ((bytesOf es).drop 4)] ∧
    readline none (fun _ => 0#8) (values (input l).returned ++
      grabs (3 - (input l).returned.length) (input l).cons) = .returns r ∧
    Holds r.buf (values [0x48#8, 0x69#8]) ∧ r.buf 2 = 0#8 ∧
    r.sent = values [0x48#8, 0x69#8] ++ [10] := by
  have hi : ∀ c ∈ [0x48#8, 0x69#8], 32 ≤ c.toNat ∧ c.toNat < 127 := by decide
  obtain ⟨⟨es, hcareful, htyped⟩, hall⟩ := readline_typed hi none fun _ => 0#8
  have hbytes : [Arrival.intr ((bytesOf es).take 4), .getc [],
      .intr ((bytesOf es).drop 4)].flatMap Arrival.bytes = bytesOf es := by
    show (bytesOf es).take 4 ++ ([] ++ ((bytesOf es).drop 4 ++ [])) = _
    rw [List.append_nil, List.nil_append, List.take_append_drop]
  have hlen : (delivered (heard [.intr ((bytesOf es).take 4), .getc [],
      .intr ((bytesOf es).drop 4)] .zero)).length = 3 := by
    rw [delivered_heard, hbytes, hcareful.follows.typed, htyped]
    rfl
  obtain ⟨r, hr, hholds, hend, hsent⟩ :=
    hall es _ hcareful htyped hbytes (neverFull_of_length (by omega))
  exact ⟨es, _, r, hcareful, htyped, rfl, hr, hholds, hend, hsent⟩

end Keyboard
end PmakeOs
