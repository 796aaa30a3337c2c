import Mathlib.Logic.Relation

/-! # Explorations

A search of a graph keeps the nodes it has seen and a queue of those it has yet to look at. In
whatever order it takes them, it has seen what is reached from the roots once the queue is empty. -/
namespace Explorations
open Relation

variable {α : Type} {R : α → α → Prop} {roots seen queue : List α} {n : α}

/-- All nodes are reached from the roots, and what is next to a seen node is not forgotten. -/
structure Exploration (R : α → α → Prop) (roots seen queue : List α) : Prop where
  reached : ∀ n, n ∈ seen ∨ n ∈ queue → ∃ r ∈ roots, ReflTransGen R r n
  roots_mem : ∀ r ∈ roots, r ∈ seen ∨ r ∈ queue
  closed : ∀ n ∈ seen, ∀ m, R n m → m ∈ seen ∨ m ∈ queue

theorem Exploration.start (roots : List α) : Exploration R roots [] roots where
  reached n hn := by
    rcases hn with hn | hn
    · exact absurd hn List.not_mem_nil
    · exact ⟨n, hn, .refl⟩
  roots_mem _ hr := .inr hr
  closed n hn := absurd hn List.not_mem_nil

/-- A node that was seen before. -/
theorem Exploration.skip (h : Exploration R roots seen (n :: queue)) (hn : n ∈ seen) :
    Exploration R roots seen queue := by
  have hmem : ∀ m, m ∈ seen ∨ m ∈ n :: queue → m ∈ seen ∨ m ∈ queue := by
    intro m hm
    rcases hm with hm | hm
    · exact .inl hm
    · rcases List.mem_cons.1 hm with rfl | hm
      · exact .inl hn
      · exact .inr hm
  exact {
    reached := fun m hm => h.reached m (hm.imp_right (List.mem_cons_of_mem n))
    roots_mem := fun r hr => hmem r (h.roots_mem r hr)
    closed := fun m hm k hk => hmem k (h.closed m hm k hk) }

/-- A new node, whose neighbours are put on the queue. -/
theorem Exploration.visit (h : Exploration R roots seen (n :: queue)) {queue' : List α}
    (hqueue : ∀ m, m ∈ queue' ↔ m ∈ queue ∨ R n m) :
    Exploration R roots (n :: seen) queue' := by
  have hmem : ∀ m, m ∈ seen ∨ m ∈ n :: queue → m ∈ n :: seen ∨ m ∈ queue' := by
    intro m hm
    rcases hm with hm | hm
    · exact .inl (List.mem_cons_of_mem n hm)
    · rcases List.mem_cons.1 hm with rfl | hm
      · exact .inl List.mem_cons_self
      · exact .inr ((hqueue m).2 (.inl hm))
  constructor
  · intro m hm
    rcases hm with hm | hm
    · rcases List.mem_cons.1 hm with rfl | hm
      · exact h.reached m (.inr List.mem_cons_self)
      · exact h.reached m (.inl hm)
    · rcases (hqueue m).1 hm with hm | hm
      · exact h.reached m (.inr (List.mem_cons_of_mem n hm))
      · obtain ⟨r, hr, hreach⟩ := h.reached n (.inr List.mem_cons_self)
        exact ⟨r, hr, hreach.tail hm⟩
  · intro r hr
    exact hmem r (h.roots_mem r hr)
  · intro m hm k hk
    rcases List.mem_cons.1 hm with rfl | hm
    · exact .inr ((hqueue k).2 (.inr hk))
    · exact hmem k (h.closed m hm k hk)

theorem Exploration.mem_seen_iff (h : Exploration R roots seen []) :
    n ∈ seen ↔ ∃ r ∈ roots, ReflTransGen R r n := by
  constructor
  · intro hn
    exact h.reached n (.inl hn)
  · intro hn
    obtain ⟨r, hr, hreach⟩ := hn
    induction hreach with
    | refl => exact (h.roots_mem r hr).resolve_right List.not_mem_nil
    | tail _ hstep ih => exact (h.closed _ ih _ hstep).resolve_right List.not_mem_nil

end Explorations
