import ColumnTypes.Notice

namespace ColumnTypes

/-!
# Results with notices

A result together with the notices given while it was computed, oldest first.
-/

structure Logged (α : Type) where
  value : α
  notices : List Notice

namespace Logged

variable {α β : Type}

def emit (n : Notice) : Logged Unit := ⟨(), [n]⟩

instance : Monad Logged where
  pure a := ⟨a, []⟩
  bind x f := ⟨(f x.value).value, x.notices ++ (f x.value).notices⟩

@[simp] theorem value_pure (a : α) : (pure a : Logged α).value = a := rfl

@[simp] theorem value_bind (x : Logged α) (f : α → Logged β) :
    (x >>= f).value = (f x.value).value := rfl

instance : LawfulMonad Logged := LawfulMonad.mk' Logged
  (by intro α x; simp [Functor.map])
  (by intro α β a f; simp [Bind.bind, Pure.pure])
  (by intro α β γ x f g; simp [Bind.bind, List.append_assoc])

end Logged

end ColumnTypes
