import Mathlib.Control.Monad.Writer

/-!
# Computations that read a table

A computation of type `Reading κ α` reads a table at keys of type `κ` and may run out of
rounds.  The keys are recorded.

`Reads S x a` says that `x` returns `a` and reads at keys in `S` only.  It goes through the
parts of a computation in both directions: `Reads.bind` puts a run together, and
`Reads.of_bind` takes it apart.
-/

namespace PmakeOs.Lib

variable {κ α β : Type} {S T : κ → Prop} {k : κ}

/-- A computation that reads at recorded keys. -/
abbrev Reading (κ : Type) := WriterT (List κ) Option

namespace Reading

/-- Read the table `f` at `k`. -/
def read (f : κ → β) (k : κ) : Reading κ β := WriterT.mk (some (f k, [k]))

/-- A computation that reads nothing. -/
def lift (o : Option α) : Reading κ α := WriterT.mk (o.map fun a => (a, []))

theorem run_bind (x : Reading κ α) (f : α → Reading κ β) :
    (x >>= f).run = x.run.bind fun p => (f p.1).run.map fun q => (q.1, p.2 ++ q.2) := rfl

end Reading

/-- The computation returns `a` and reads at keys in `S` only. -/
def Reads (S : κ → Prop) (x : Reading κ α) (a : α) : Prop :=
  ∃ keys, x.run = some (a, keys) ∧ ∀ k ∈ keys, S k

namespace Reads

theorem mono {x : Reading κ α} {a : α} (h : Reads S x a) (hST : ∀ k, S k → T k) : Reads T x a := by
  obtain ⟨l, hl, hS⟩ := h
  exact ⟨l, hl, fun k hk => hST k (hS k hk)⟩

theorem unique {x : Reading κ α} {a a' : α} (h : Reads S x a) (h' : Reads T x a') : a = a' := by
  obtain ⟨l, hl, -⟩ := h
  obtain ⟨l', hl', -⟩ := h'
  exact congrArg Prod.fst (Option.some.inj (hl.symm.trans hl'))

theorem pure (a : α) : Reads S (pure a : Reading κ α) a :=
  ⟨[], rfl, fun _ h => absurd h List.not_mem_nil⟩

theorem read (f : κ → β) (h : S k) : Reads S (Reading.read f k) (f k) := by
  refine ⟨[k], rfl, fun k' hk' => ?_⟩
  rwa [List.mem_singleton.mp hk']

theorem lift {o : Option α} {a : α} (h : o = some a) : Reads S (Reading.lift o) a := by
  subst h
  exact ⟨[], rfl, fun _ h => absurd h List.not_mem_nil⟩

theorem bind {x : Reading κ α} {f : α → Reading κ β} {a : α} {b : β} (hx : Reads S x a)
    (hf : Reads S (f a) b) : Reads S (x >>= f) b := by
  obtain ⟨l, hl, hS⟩ := hx
  obtain ⟨l', hl', hS'⟩ := hf
  refine ⟨l ++ l', ?_, fun k hk => ?_⟩
  · rw [Reading.run_bind, hl, Option.bind_some, hl']
    rfl
  · rcases List.mem_append.mp hk with h | h
    · exact hS k h
    · exact hS' k h

theorem of_read {f : κ → β} {b : β} (h : Reads S (Reading.read f k) b) : S k := by
  obtain ⟨l, hl, hS⟩ := h
  obtain rfl : [k] = l := congrArg Prod.snd (Option.some.inj hl)
  exact hS k (List.mem_singleton_self k)

theorem of_bind {x : Reading κ α} {f : α → Reading κ β} {b : β} (h : Reads S (x >>= f) b) :
    ∃ a, Reads S x a ∧ Reads S (f a) b := by
  obtain ⟨l, hl, hS⟩ := h
  rw [Reading.run_bind] at hl
  obtain ⟨⟨a, l₁⟩, hx, hl⟩ := Option.bind_eq_some_iff.mp hl
  obtain ⟨⟨b', l₂⟩, hf, heq⟩ := Option.map_eq_some_iff.mp hl
  obtain ⟨rfl, rfl⟩ := Prod.mk.inj heq
  exact ⟨a, ⟨l₁, hx, fun k hk => hS k (List.mem_append_left l₂ hk)⟩,
    ⟨l₂, hf, fun k hk => hS k (List.mem_append_right l₁ hk)⟩⟩

end Reads

end PmakeOs.Lib
