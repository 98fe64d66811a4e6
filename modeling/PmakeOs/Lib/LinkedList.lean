import Mathlib.Data.List.Nodup
import Mathlib.Tactic.Common
import Mathlib.Logic.Function.Basic

/-!
# Lists threaded through a link map

A singly linked list in a store is a head pointer and a map `next` from cells to
the following cell.  `Threads next h l` says that following `next` from `h`
visits exactly the cells of `l`, in order, and then meets the null pointer.

The point of the definition is that a *finite* threaded list is automatically
acyclic: `next` is a function, so a cell met twice would be followed by the same
cells twice, and the list would never end (`Threads.nodup`).  For the same
reason the list is determined by the head (`Threads.unique`).

The three updates a free list makes are covered: a change of links off the list
(`Threads.frame`), taking the head (`Threads.pop`), and pushing a new head
(`Threads.push`).

A list that is being built at its far end is `Open`: the link of its last cell is
still to be written.  It can be given one more cell (`Open.append`), or closed with a
list that goes on from there (`Open.close`).

`Linked next h a` says that `a` is met on the way from `h`, also when the links form a
cycle and there is no threaded list.
-/

namespace PmakeOs
namespace Lib

variable {α : Type*}

/-- `next` threads the list `l` from the pointer `h`. -/
inductive Threads (next : α → Option α) : Option α → List α → Prop
  | nil : Threads next none []
  | cons {a : α} {l : List α} : Threads next (next a) l → Threads next (some a) (a :: l)

namespace Threads

variable {next next' : α → Option α} {h : Option α} {a : α} {l l' : List α}

theorem eq_nil (t : Threads next none l) : l = [] := by
  cases t
  rfl

/-- The head of a threaded list, and the list threaded from its link. -/
theorem exists_cons (t : Threads next (some a) l) :
    ∃ l', l = a :: l' ∧ Threads next (next a) l' := by
  cases t with
  | cons t => exact ⟨_, rfl, t⟩

theorem head_eq (t : Threads next h l) : h = l.head? := by
  cases t <;> rfl

/-- The list is determined by the head. -/
theorem unique (t : Threads next h l) : ∀ {l'}, Threads next h l' → l = l' := by
  induction t with
  | nil => exact fun t' => t'.eq_nil.symm
  | cons _ ih =>
    intro l' t'
    obtain ⟨m, rfl, t''⟩ := t'.exists_cons
    rw [ih t'']

/-- A cell of a threaded list starts a threaded list of its own, which is no
longer than the whole. -/
theorem exists_of_mem (t : Threads next h l) (ha : a ∈ l) :
    ∃ m, Threads next (next a) m ∧ m.length < l.length := by
  induction t with
  | nil => simp at ha
  | @cons b l t ih =>
    rcases List.mem_cons.mp ha with rfl | ha
    · exact ⟨l, t, by simp⟩
    · obtain ⟨m, tm, hm⟩ := ih ha
      exact ⟨m, tm, by rw [List.length_cons]; omega⟩

/-- **A threaded list has no duplicates.**  The head cannot occur again further
on: the list threaded from its link would then be shorter than itself. -/
theorem nodup (t : Threads next h l) : l.Nodup := by
  induction t with
  | nil => exact List.nodup_nil
  | @cons b l t ih =>
    refine List.nodup_cons.mpr ⟨fun hb => ?_, ih⟩
    obtain ⟨m, tm, hm⟩ := t.exists_of_mem hb
    rw [tm.unique t] at hm
    exact Nat.lt_irrefl _ hm

/-- Links off the list do not matter. -/
theorem frame (t : Threads next h l) (hn : ∀ a ∈ l, next' a = next a) : Threads next' h l := by
  induction t with
  | nil => exact .nil
  | @cons b l _ ih =>
    refine .cons ?_
    rw [hn b List.mem_cons_self]
    exact ih fun a ha => hn a (List.mem_cons_of_mem b ha)

/-- A run of consecutive cells, each linked to the next one. -/
theorem range' {next : ℕ → Option ℕ} : ∀ {k n : ℕ},
    (∀ i, k ≤ i → i < k + n → next i = if i + 1 < k + n then some (i + 1) else none) →
      Threads next (if n = 0 then none else some k) (List.range' k n) := by
  intro k n
  induction n generalizing k with
  | zero => exact fun _ => .nil
  | succ n ih =>
    intro hn
    have hk := hn k (Nat.le_refl k) (by omega)
    rw [if_neg (Nat.succ_ne_zero n), List.range'_succ]
    refine .cons ?_
    have htail : next k = if n = 0 then none else some (k + 1) := by
      rw [hk]
      cases n with
      | zero => rw [if_neg (by omega), if_pos rfl]
      | succ m => rw [if_pos (by omega), if_neg (Nat.succ_ne_zero m)]
    rw [htail]
    refine ih fun i hi hlt => ?_
    rw [hn i (by omega) (by omega)]
    congr 2
    omega

/-- The link of the last cell. -/
theorem link_of_getLast? (t : Threads next h l) (ha : l.getLast? = some a) : next a = none := by
  induction t with
  | nil => simp at ha
  | @cons b m t ih =>
    cases m with
    | nil =>
      obtain rfl : b = a := by simpa using ha
      generalize next b = v at t
      cases t
      rfl
    | cons c m => exact ih (by simpa using ha)

/-- A list whose last link is redirected goes on with the list threaded from
there. -/
theorem extend (t : Threads next h l) {z : α} {v : Option α} (hz : l.getLast? = some z)
    (hn : ∀ b ∈ l, b ≠ z → next' b = next b) (hv : next' z = v) (t' : Threads next' v l') :
    Threads next' h (l ++ l') := by
  induction t with
  | nil => simp at hz
  | @cons b m t ih =>
    refine .cons ?_
    cases m with
    | nil =>
      obtain rfl : b = z := by simpa using hz
      rw [hv]
      exact t'
    | cons c m =>
      have hz' : (c :: m).getLast? = some z := by simpa using hz
      have hbz : b ≠ z := by
        rintro rfl
        exact (List.nodup_cons.mp (Threads.cons t).nodup).1 (List.mem_of_getLast? hz')
      rw [hn b List.mem_cons_self hbz]
      exact ih hz' fun x hx => hn x (List.mem_cons_of_mem b hx)

variable [DecidableEq α]

/-- Taking the head, and clearing its link as the list lets go of it. -/
theorem pop (t : Threads next (some a) l) :
    ∃ l', l = a :: l' ∧ Threads (Function.update next a none) (next a) l' := by
  obtain ⟨l', rfl, t'⟩ := t.exists_cons
  refine ⟨l', rfl, t'.frame fun b hb => ?_⟩
  have hne : b ≠ a := by
    rintro rfl
    exact (List.nodup_cons.mp t.nodup).1 hb
  exact Function.update_of_ne hne _ _

/-- Pushing a cell that is not on the list. -/
theorem push (t : Threads next h l) (ha : a ∉ l) :
    Threads (Function.update next a h) (some a) (a :: l) := by
  refine .cons ?_
  rw [Function.update_self]
  refine t.frame fun b hb => ?_
  have hne : b ≠ a := by
    rintro rfl
    exact ha hb
  exact Function.update_of_ne hne _ _

end Threads

/-- Following `next` from `h` meets the cell `a`. -/
inductive Linked (next : α → Option α) : Option α → α → Prop
  | head {a : α} : Linked next (some a) a
  | tail {a b : α} : Linked next (next a) b → Linked next (some a) b

section Linked

variable {next : α → Option α} {h : Option α} {a : α} {l : List α}

theorem Threads.linked_iff (t : Threads next h l) : Linked next h a ↔ a ∈ l := by
  induction t with
  | nil =>
    constructor
    · intro h
      cases h
    · intro h
      simp at h
  | @cons b l _ ih =>
    rw [List.mem_cons, ← ih]
    constructor
    · intro h
      cases h with
      | head => exact Or.inl rfl
      | tail h => exact Or.inr h
    · rintro (rfl | h)
      · exact .head
      · exact .tail h

/-- No cell of a threaded list comes again. -/
theorem Threads.not_linked (t : Threads next (some a) l) : ¬ Linked next (next a) a := by
  obtain ⟨l', rfl, t'⟩ := t.exists_cons
  rw [t'.linked_iff]
  exact (List.nodup_cons.mp t.nodup).1

/-- The links up to a cell do not depend on its own. -/
theorem Linked.update [DecidableEq α] {v : Option α} (hl : Linked next h a) :
    Linked (Function.update next a v) h a := by
  induction hl with
  | head => exact .head
  | @tail b a _ ih =>
    rcases eq_or_ne b a with rfl | hne
    · exact .head
    · refine .tail ?_
      rw [Function.update_of_ne hne]
      exact ih

end Linked

section Open

variable [DecidableEq α] {next next' : α → Option α} {h t v : Option α} {a : α} {l m : List α}

/-- The list from `h` whose last link, in the cell `t`, is still to be written.  There
is no such cell if the list is empty. -/
def Open (next : α → Option α) (h t : Option α) (l : List α) : Prop :=
  match t with
  | none => l = []
  | some z => Threads (Function.update next z none) h l ∧ l.getLast? = some z

/-- Write `v` at the far end: the new links, and the new head. -/
def writeEnd (next : α → Option α) (h t v : Option α) : (α → Option α) × Option α :=
  match t with
  | none => (next, v)
  | some z => (Function.update next z v, h)

theorem writeEnd_of_notMem (o : Open next h t l) (ha : a ∉ l) :
    (writeEnd next h t v).1 a = next a := by
  cases t with
  | none => rfl
  | some z =>
    refine Function.update_of_ne ?_ _ _
    rintro rfl
    exact ha (List.mem_of_getLast? o.2)

theorem Open.frame (o : Open next h t l) (hn : ∀ b ∈ l, next' b = next b) : Open next' h t l := by
  cases t with
  | none => exact o
  | some z =>
    refine ⟨o.1.frame fun b hb => ?_, o.2⟩
    rcases eq_or_ne b z with rfl | hbz
    · rw [Function.update_self, Function.update_self]
    · rw [Function.update_of_ne hbz, Function.update_of_ne hbz, hn b hb]

/-- One more cell at the far end. -/
theorem Open.append (o : Open next h t l) (ha : a ∉ l) :
    Open (writeEnd next h t (some a)).1 (writeEnd next h t (some a)).2 (some a) (l ++ [a]) := by
  refine ⟨?_, by simp⟩
  have hone : ∀ f : α → Option α, Threads (Function.update f a none) (some a) [a] := by
    intro f
    refine .cons ?_
    rw [Function.update_self]
    exact .nil
  cases t with
  | none =>
    obtain rfl : l = [] := o
    exact hone _
  | some z =>
    have hza : z ≠ a := by
      rintro rfl
      exact ha (List.mem_of_getLast? o.2)
    refine o.1.extend o.2 (fun b hb hbz => ?_) ?_ (hone _)
    · have hba : b ≠ a := by
        rintro rfl
        exact ha hb
      show Function.update (Function.update next z (some a)) a none b = _
      rw [Function.update_of_ne hba, Function.update_of_ne hbz, Function.update_of_ne hbz]
    · show Function.update (Function.update next z (some a)) a none z = _
      rw [Function.update_of_ne hza, Function.update_self]

/-- The list goes on with the one threaded from `v`. -/
theorem Open.close (o : Open next h t l) (tm : Threads next v m) (hd : ∀ b ∈ m, b ∉ l) :
    Threads (writeEnd next h t v).1 (writeEnd next h t v).2 (l ++ m) := by
  have tm' : Threads (writeEnd next h t v).1 v m :=
    tm.frame fun b hb => writeEnd_of_notMem o (hd b hb)
  cases t with
  | none =>
    obtain rfl : l = [] := o
    exact tm'
  | some z =>
    have hz : (writeEnd next h (some z) v).1 z = v := by
      show Function.update next z v z = v
      rw [Function.update_self]
    refine o.1.extend o.2 (fun b _ hbz => ?_) hz tm'
    show Function.update next z v b = _
    rw [Function.update_of_ne hbz, Function.update_of_ne hbz]

end Open

end Lib
end PmakeOs
