import Mathlib.Data.List.Basic

/-!
# Computations that write to a sink

A computation of type `Out ε ρ σ α` may fail with an `ε`, has a state of its own of type
`ρ`, and writes to a sink of type `σ`.  If all it does with the sink is `put`, then one
run that collects what is put in a list says what happens for every other sink: the sink
ends as if the list had been poured into it (`Follows`).  Such a run only ever extends the
list (`Grows`).
-/

namespace PmakeOs.Lib

variable {ε ρ σ γ α β : Type}

/-- A computation with a state of its own and a sink. -/
abbrev Out (ε ρ σ : Type) := EStateM ε (ρ × σ)

/-- The sink after the entries of a list, one after the other. -/
def pour (put : γ → σ → σ) (s₀ : σ) (l : List γ) : σ := l.foldl (fun s c => put c s) s₀

/-- The sink that collects. -/
def snoc (c : γ) (l : List γ) : List γ := l ++ [c]

namespace Out

/-- Write one entry. -/
def put (put : γ → σ → σ) (c : γ) : Out ε ρ σ Unit := fun p => .ok () (p.1, put c p.2)

/-- A step that leaves the sink alone. -/
def own (f : ρ → EStateM.Result ε ρ α) : Out ε ρ σ α := fun p =>
  match f p.1 with
  | .ok a r => .ok a (r, p.2)
  | .error e r => .error e (r, p.2)

end Out

/-- The same result with another sink. -/
def withSink (f : σ → β) : EStateM.Result ε (ρ × σ) α → EStateM.Result ε (ρ × β) α
  | .ok a p => .ok a (p.1, f p.2)
  | .error e p => .error e (p.1, f p.2)

theorem bind_apply (x : Out ε ρ σ α) (f : α → Out ε ρ σ β) (p : ρ × σ) :
    (x >>= f) p = match x p with
      | .ok a q => f a q
      | .error e q => .error e q := by
  show EStateM.bind x f p = _
  unfold EStateM.bind
  cases x p <;> rfl

/-- A sequence that returns has a first part that returns. -/
theorem bind_eq_ok {x : Out ε ρ σ α} {f : α → Out ε ρ σ β} {p q : ρ × σ} {b : β}
    (h : (x >>= f) p = .ok b q) : ∃ a p', x p = .ok a p' ∧ f a p' = .ok b q := by
  rw [bind_apply] at h
  cases hx : x p with
  | ok a p' =>
    rw [hx] at h
    exact ⟨a, p', rfl, h⟩
  | error e p' =>
    rw [hx] at h
    cases h

theorem pour_snoc (put : γ → σ → σ) (s₀ : σ) (c : γ) (l : List γ) :
    pour put s₀ (snoc c l) = put c (pour put s₀ l) := by
  rw [pour, snoc, List.foldl_append]
  rfl

/-! ## One run for every sink -/

/-- The computation `y` on a sink does what `x` does on a list. -/
structure Follows (put : γ → σ → σ) (s₀ : σ) (x : Out ε ρ (List γ) α) (y : Out ε ρ σ α) : Prop where
  run : ∀ r l, y (r, pour put s₀ l) = withSink (pour put s₀) (x (r, l))

namespace Follows

variable {w : γ → σ → σ} {s₀ : σ}

theorem pure (a : α) : Follows w s₀ (pure a : Out ε ρ (List γ) α) (pure a) :=
  ⟨fun _ _ => rfl⟩

theorem bind {x : Out ε ρ (List γ) α} {y : Out ε ρ σ α} {f : α → Out ε ρ (List γ) β}
    {g : α → Out ε ρ σ β} (h : Follows w s₀ x y) (hf : ∀ a, Follows w s₀ (f a) (g a)) :
    Follows w s₀ (x >>= f) (y >>= g) := by
  refine ⟨fun r l => ?_⟩
  rw [bind_apply, bind_apply, h.run r l]
  cases hx : x (r, l) with
  | ok a p => exact (hf a).run p.1 p.2
  | error e p => rfl

theorem put (c : γ) : Follows w s₀ (Out.put snoc c : Out ε ρ (List γ) Unit) (Out.put w c) := by
  refine ⟨fun r l => ?_⟩
  rw [Out.put, Out.put, withSink, pour_snoc]

theorem own (f : ρ → EStateM.Result ε ρ α) :
    Follows w s₀ (Out.own f : Out ε ρ (List γ) α) (Out.own f) := by
  refine ⟨fun r l => ?_⟩
  unfold Out.own
  cases f r <;> rfl

theorem ite {c : Prop} [Decidable c] {x x' : Out ε ρ (List γ) α} {y y' : Out ε ρ σ α}
    (h : Follows w s₀ x y) (h' : Follows w s₀ x' y') :
    Follows w s₀ (if c then x else x') (if c then y else y') := by
  split
  · exact h
  · exact h'

end Follows

/-! ## Nothing is taken back -/

/-- What has been put stays. -/
structure Grows (x : Out ε ρ (List γ) α) : Prop where
  run : ∀ r l a p, x (r, l) = .ok a p → l <+: p.2

/-- Something is put. -/
structure Loud (x : Out ε ρ (List γ) α) : Prop where
  run : ∀ r l a p, x (r, l) = .ok a p → p.2 ≠ l

theorem pour_snoc_eq (l₀ l : List γ) : pour snoc l₀ l = l₀ ++ l := by
  induction l generalizing l₀ with
  | nil => exact (List.append_nil l₀).symm
  | cons c l ih => exact (ih (l₀ ++ [c])).trans (by rw [List.append_assoc, List.singleton_append])

/-- A computation that treats all sinks alike does not look at what its list holds. -/
theorem Follows.grows {x : Out ε ρ (List γ) α} (h : ∀ l₀, Follows snoc l₀ x x) : Grows x := by
  refine ⟨fun r l a p hp => ?_⟩
  have hrun := (h l).run r []
  rw [pour_snoc_eq, List.append_nil, hp] at hrun
  cases hx : x (r, []) with
  | ok b q =>
    rw [hx, withSink, pour_snoc_eq] at hrun
    rw [(EStateM.Result.ok.inj hrun).2]
    exact List.prefix_append l q.2
  | error e q =>
    rw [hx] at hrun
    cases hrun

theorem Loud.put (c : γ) : Loud (Out.put snoc c : Out ε ρ (List γ) Unit) := by
  refine ⟨fun r l a p h => ?_⟩
  obtain ⟨-, rfl⟩ := EStateM.Result.ok.inj h
  show l ++ [c] ≠ l
  simp

/-- A first part that puts something. -/
theorem Loud.bind {x : Out ε ρ (List γ) α} {f : α → Out ε ρ (List γ) β} (hg : Grows x)
    (h : Loud x) (hf : ∀ a, Grows (f a)) : Loud (x >>= f) := by
  refine ⟨fun r l b p hp hl => ?_⟩
  obtain ⟨a, q, hx, hp⟩ := bind_eq_ok hp
  have hlq := hg.run r l a q hx
  have hqp := (hf a).run q.1 q.2 b p hp
  rw [hl] at hqp
  exact h.run r l a q hx (hqp.eq_of_length (Nat.le_antisymm hqp.length_le hlq.length_le))

/-- A last part that puts something. -/
theorem Loud.bind_right {x : Out ε ρ (List γ) α} {f : α → Out ε ρ (List γ) β} (hx : Grows x)
    (hg : ∀ a, Grows (f a)) (h : ∀ a, Loud (f a)) : Loud (x >>= f) := by
  refine ⟨fun r l b p hp hl => ?_⟩
  obtain ⟨a, q, hxr, hp⟩ := bind_eq_ok hp
  have hlq := hx.run r l a q hxr
  have hqp := (hg a).run q.1 q.2 b p hp
  rw [hl] at hqp
  have heq : q.2 = l := hqp.eq_of_length (Nat.le_antisymm hqp.length_le hlq.length_le)
  refine (h a).run q.1 q.2 b p hp ?_
  rw [hl, heq]

/-! ## A part of the state that stays -/

/-- The computation does not change the value of `f`. -/
structure Keeps (f : ρ → γ) (x : Out ε ρ σ α) : Prop where
  run : ∀ p a q, x p = .ok a q → f q.1 = f p.1

namespace Keeps

variable {f : ρ → γ}

theorem pure (a : α) : Keeps f (pure a : Out ε ρ σ α) := by
  refine ⟨fun p b q h => ?_⟩
  obtain ⟨-, rfl⟩ := EStateM.Result.ok.inj h
  rfl

theorem bind {x : Out ε ρ σ α} {g : α → Out ε ρ σ β} (h : Keeps f x) (hg : ∀ a, Keeps f (g a)) :
    Keeps f (x >>= g) := by
  refine ⟨fun p b q hq => ?_⟩
  obtain ⟨a, p', hx, hq⟩ := bind_eq_ok hq
  exact ((hg a).run p' b q hq).trans (h.run p a p' hx)

theorem put {w : β → σ → σ} (c : β) : Keeps f (Out.put w c : Out ε ρ σ Unit) := by
  refine ⟨fun p a q h => ?_⟩
  obtain ⟨-, rfl⟩ := EStateM.Result.ok.inj h
  rfl

theorem own {g : ρ → EStateM.Result ε ρ α} (hg : ∀ r a r', g r = .ok a r' → f r' = f r) :
    Keeps f (Out.own g : Out ε ρ σ α) := by
  refine ⟨fun p a q h => ?_⟩
  unfold Out.own at h
  cases hgp : g p.1 with
  | ok b r =>
    simp only [hgp] at h
    obtain ⟨-, rfl⟩ := EStateM.Result.ok.inj h
    exact hg p.1 b r hgp
  | error e r =>
    simp only [hgp] at h
    cases h

theorem ite {c : Prop} [Decidable c] {x x' : Out ε ρ σ α} (h : Keeps f x) (h' : Keeps f x') :
    Keeps f (if c then x else x') := by
  split
  · exact h
  · exact h'

end Keeps

/-! ## A history -/

/-- The state that a computation ends in, whether it returns or fails. -/
def last : EStateM.Result ε σ α → σ
  | .ok _ s => s
  | .error _ s => s

/-- The history `f` only gets longer, also if the computation fails. -/
structure Extends (f : ρ → List γ) (x : Out ε ρ σ α) : Prop where
  run : ∀ p, f p.1 <:+ f (last (x p)).1

namespace Extends

variable {f : ρ → List γ}

theorem pure (a : α) : Extends f (pure a : Out ε ρ σ α) := ⟨fun _ => List.suffix_rfl⟩

theorem bind {x : Out ε ρ σ α} {g : α → Out ε ρ σ β} (h : Extends f x)
    (hg : ∀ a, Extends f (g a)) : Extends f (x >>= g) := by
  refine ⟨fun p => ?_⟩
  have hx := h.run p
  rw [bind_apply]
  cases hxp : x p with
  | ok a q =>
    rw [hxp] at hx
    exact hx.trans ((hg a).run q)
  | error e q =>
    rw [hxp] at hx
    exact hx

theorem put {w : β → σ → σ} (c : β) : Extends f (Out.put w c : Out ε ρ σ Unit) :=
  ⟨fun _ => List.suffix_rfl⟩

theorem own {g : ρ → EStateM.Result ε ρ α} (hg : ∀ r, f r <:+ f (last (g r))) :
    Extends f (Out.own g : Out ε ρ σ α) := by
  refine ⟨fun p => ?_⟩
  have h := hg p.1
  unfold Out.own
  cases hgp : g p.1 with
  | ok b r =>
    rw [hgp] at h
    exact h
  | error e r =>
    rw [hgp] at h
    exact h

theorem ite {c : Prop} [Decidable c] {x x' : Out ε ρ σ α} (h : Extends f x) (h' : Extends f x') :
    Extends f (if c then x else x') := by
  split
  · exact h
  · exact h'

end Extends

/-! ## Computations that never fail -/

/-- The computation returns from every state. -/
structure Total (x : Out ε ρ σ α) : Prop where
  run : ∀ p, ∃ a q, x p = .ok a q

namespace Total

theorem pure (a : α) : Total (pure a : Out ε ρ σ α) := ⟨fun p => ⟨a, p, rfl⟩⟩

theorem bind {x : Out ε ρ σ α} {f : α → Out ε ρ σ β} (h : Total x) (hf : ∀ a, Total (f a)) :
    Total (x >>= f) := by
  refine ⟨fun p => ?_⟩
  obtain ⟨a, q, hx⟩ := h.run p
  rw [bind_apply, hx]
  exact (hf a).run q

theorem put {w : γ → σ → σ} (c : γ) : Total (Out.put w c : Out ε ρ σ Unit) :=
  ⟨fun _ => ⟨(), _, rfl⟩⟩

theorem own {f : ρ → EStateM.Result ε ρ α} (hf : ∀ r, ∃ a r', f r = .ok a r') :
    Total (Out.own f : Out ε ρ σ α) := by
  refine ⟨fun p => ?_⟩
  obtain ⟨a, r', h⟩ := hf p.1
  refine ⟨a, (r', p.2), ?_⟩
  unfold Out.own
  rw [h]

theorem ite {c : Prop} [Decidable c] {x x' : Out ε ρ σ α} (h : Total x) (h' : Total x') :
    Total (if c then x else x') := by
  split
  · exact h
  · exact h'

end Total

end PmakeOs.Lib
