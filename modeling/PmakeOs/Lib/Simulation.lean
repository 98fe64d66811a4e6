import Mathlib.Order.Basic

/-!
# Runs with labels, and simulations by a function

`Trail R s l t` is a run from `s` to `t` whose steps have the labels `l`.

* `Trail.invariant` --- what every step keeps, a run keeps;
* `Trail.simulate` --- if every step of one system from a state with the invariant is, seen
  through a function, a step of another system with the same label, then the same is true of
  runs.
-/

namespace PmakeOs
namespace Lib

variable {S T L : Type*} {R : S → L → S → Prop} {Q : T → L → T → Prop} {s t u : S} {l l' : List L}
  {a : L} {I : S → Prop} {f : S → T}

/-- The runs from `s`. -/
inductive Trail (R : S → L → S → Prop) (s : S) : List L → S → Prop
  | nil : Trail R s [] s
  | snoc {l : List L} {t u : S} {a : L} (r : Trail R s l t) (h : R t a u) : Trail R s (l ++ [a]) u

theorem Trail.invariant (hstep : ∀ s a t, I s → R s a t → I t) (h : Trail R s l t) (hs : I s) :
    I t := by
  induction h with
  | nil => exact hs
  | snoc _ h ih => exact hstep _ _ _ ih h

theorem Trail.simulate (hstep : ∀ s a t, I s → R s a t → Q (f s) a (f t) ∧ I t)
    (h : Trail R s l t) (hs : I s) : Trail Q (f s) l (f t) := by
  induction h with
  | nil => exact .nil
  | snoc r h ih =>
    have hI := r.invariant (fun s a t hs hr => (hstep s a t hs hr).2) hs
    exact .snoc ih (hstep _ _ _ hI h).1

end Lib
end PmakeOs
