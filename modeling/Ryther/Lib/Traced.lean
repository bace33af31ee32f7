import Mathlib.Logic.Basic

/-!
# Computations with a trace

A value together with a list of what was done on the way to it. Instrumented code is written in
the monad; `value` forgets the trace.
-/

namespace Ryther.Lib

/-- A value and the events on the way to it.
Kind: D -/
structure Traced (ω α : Type) where
  value : α
  trace : List ω

namespace Traced

variable {ω α β : Type}

instance : Monad (Traced ω) where
  pure a := ⟨a, []⟩
  bind x f := ⟨(f x.value).value, x.trace ++ (f x.value).trace⟩

@[simp] theorem value_pure (a : α) : (pure a : Traced ω α).value = a := rfl

@[simp] theorem trace_pure (a : α) : (pure a : Traced ω α).trace = [] := rfl

/-- The value of a sequence is computed from the value of its first part. Kind: L -/
@[simp] theorem value_bind (x : Traced ω α) (f : α → Traced ω β) :
    (x >>= f).value = (f x.value).value := rfl

/-- The records of a sequence come one after the other. Kind: L -/
@[simp] theorem trace_bind (x : Traced ω α) (f : α → Traced ω β) :
    (x >>= f).trace = x.trace ++ (f x.value).trace := rfl

theorem value_ite (p : Prop) [Decidable p] (x y : Traced ω α) :
    (if p then x else y).value = if p then x.value else y.value := apply_ite _ _ _ _

theorem trace_ite (p : Prop) [Decidable p] (x y : Traced ω α) :
    (if p then x else y).trace = if p then x.trace else y.trace := apply_ite _ _ _ _

end Traced

end Ryther.Lib
