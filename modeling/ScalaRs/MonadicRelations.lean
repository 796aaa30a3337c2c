import Mathlib.Data.List.Basic

/-! # Relations between computations of two monads

A program written over an arbitrary monad computes related results in two of them
when its operations do. -/
namespace ScalaRs.MonadicRelations

universe u v w

/-- A relation that returning a value and sequencing preserve. -/
structure MonadRel (m : Type u → Type v) (n : Type u → Type w) [Monad m] [Monad n] where
  Rel : ∀ {α : Type u}, m α → n α → Prop
  pure : ∀ {α : Type u} (a : α), Rel (Pure.pure a) (Pure.pure a)
  bind : ∀ {α β : Type u} {x : m α} {y : n α} {f : α → m β} {g : α → n β},
    Rel x y → (∀ a, Rel (f a) (g a)) → Rel (x >>= f) (y >>= g)

namespace MonadRel

variable {m : Type u → Type v} {n : Type u → Type w} [Monad m] [Monad n] (T : MonadRel m n)
  {α β : Type u}

theorem foldlM {γ : Type*} {f : β → γ → m β} {g : β → γ → n β}
    (h : ∀ b a, T.Rel (f b a) (g b a)) (b : β) (l : List γ) :
    T.Rel (l.foldlM f b) (l.foldlM g b) := by
  induction l generalizing b with
  | nil => exact T.pure b
  | cons a l ih =>
    rw [List.foldlM_cons, List.foldlM_cons]
    exact T.bind (h b a) ih

theorem mapM [LawfulMonad m] [LawfulMonad n] {γ : Type*} {f : γ → m β} {g : γ → n β}
    (h : ∀ c, T.Rel (f c) (g c)) (l : List γ) : T.Rel (l.mapM f) (l.mapM g) := by
  induction l with
  | nil =>
    rw [List.mapM_nil, List.mapM_nil]
    exact T.pure []
  | cons c l ih =>
    rw [List.mapM_cons, List.mapM_cons]
    apply T.bind (h c)
    intro b
    exact T.bind ih fun bs => T.pure (b :: bs)

end MonadRel
end ScalaRs.MonadicRelations
