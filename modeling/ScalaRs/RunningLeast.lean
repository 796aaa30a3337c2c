import Mathlib.Data.List.Induction
import Mathlib.Data.List.Infix

/-! # The least element so far

A scan of a list that keeps the least element, and gives up when an element is not comparable to it.
It does not give up if and only if every part that was read has a least element. -/
namespace RunningLeast

variable {α : Type} (sub : α → α → Bool)

/-- The least element so far, and whether the scan has given up. -/
def leastStep (acc : Option α × Bool) (x : α) : Option α × Bool :=
  match acc.1 with
  | none => (some x, acc.2)
  | some b =>
      if sub x b then (some x, acc.2)
      else if sub b x then acc
      else (acc.1, true)

def IsLeastOf (l : List α) (b : α) : Prop := b ∈ l ∧ ∀ x ∈ l, sub b x = true

/-- Every part of the list from its start has a least element. -/
def AlwaysLeast (l : List α) : Prop := ∀ p, p <+: l → p ≠ [] → ∃ b, IsLeastOf sub p b

structure LeastScan (l : List α) (acc : Option α × Bool) : Prop where
  none_iff : acc.1 = none ↔ l = []
  goes_on_iff : acc.2 = false ↔ AlwaysLeast sub l
  least : acc.2 = false → ∀ b, acc.1 = some b → IsLeastOf sub l b

variable {sub}

theorem isLeastOf_concat {l : List α} {x b : α} :
    IsLeastOf sub (l ++ [x]) b ↔ (b ∈ l ∨ b = x) ∧ (∀ y ∈ l, sub b y = true) ∧ sub b x = true := by
  rw [IsLeastOf, List.mem_append, List.mem_singleton, List.forall_mem_append,
    List.forall_mem_singleton]

theorem alwaysLeast_concat {l : List α} {x : α} :
    AlwaysLeast sub (l ++ [x]) ↔ AlwaysLeast sub l ∧ ∃ b, IsLeastOf sub (l ++ [x]) b := by
  constructor
  · intro h
    exact ⟨fun p hp => h p (hp.trans (List.prefix_append l [x])), h _ (List.prefix_refl _) (by simp)⟩
  · intro h p hp hne
    rcases List.prefix_concat_iff.1 hp with heq | hp
    · exact heq ▸ h.2
    · exact h.1 p hp hne

theorem leastScan_foldl (l : List α) (hrefl : ∀ a ∈ l, sub a a = true)
    (htrans : ∀ a ∈ l, ∀ b ∈ l, ∀ c ∈ l, sub a b = true → sub b c = true → sub a c = true) :
    LeastScan sub l (l.foldl (leastStep sub) (none, false)) := by
  induction l using List.reverseRecOn with
  | nil =>
      refine ⟨by simp, ⟨fun _ p hp hne => absurd (List.prefix_nil.1 hp) hne, fun _ => rfl⟩, ?_⟩
      intro _ b hb
      exact absurd hb (by simp)
  | append_singleton l x ih =>
      have hl : ∀ a ∈ l, a ∈ l ++ [x] := fun a ha => List.mem_append_left _ ha
      have hx : x ∈ l ++ [x] := List.mem_append_right _ List.mem_cons_self
      have hscan := ih (fun a ha => hrefl a (hl a ha)) fun a ha b hb c hc =>
        htrans a (hl a ha) b (hl b hb) c (hl c hc)
      rw [List.foldl_concat]
      generalize l.foldl (leastStep sub) (none, false) = acc at hscan
      obtain ⟨best, gaveUp⟩ := acc
      cases best with
      | none =>
          obtain rfl : l = [] := hscan.none_iff.1 rfl
          have hsingle : IsLeastOf sub [x] x := by simpa [IsLeastOf] using hrefl x hx
          refine ⟨by simp [leastStep], ?_, fun _ b hb => ?_⟩
          · rw [alwaysLeast_concat, ← hscan.goes_on_iff]
            exact ⟨fun h => ⟨h, x, hsingle⟩, fun h => h.1⟩
          · cases hb
            exact hsingle
      | some b =>
          rw [leastStep]
          dsimp only
          split
          · next hsub =>
            -- The new element is below the least one.
            have hleast : IsLeastOf sub l b → IsLeastOf sub (l ++ [x]) x := fun hb =>
              isLeastOf_concat.2 ⟨.inr rfl, fun y hy =>
                htrans x hx b (hl b hb.1) y (hl y hy) hsub (hb.2 y hy), hrefl x hx⟩
            refine ⟨by simp, ?_, fun h c hc => ?_⟩
            · rw [alwaysLeast_concat, ← hscan.goes_on_iff]
              exact ⟨fun h => ⟨h, x, hleast (hscan.least h b rfl)⟩, fun h => h.1⟩
            · cases hc
              exact hleast (hscan.least h b rfl)
          · next hnot =>
            split
            · next hsub =>
              have hleast : IsLeastOf sub l b → IsLeastOf sub (l ++ [x]) b := fun hb =>
                isLeastOf_concat.2 ⟨.inl hb.1, hb.2, hsub⟩
              refine ⟨by simp, ?_, fun h c hc => ?_⟩
              · rw [alwaysLeast_concat, ← hscan.goes_on_iff]
                exact ⟨fun h => ⟨h, b, hleast (hscan.least h b rfl)⟩, fun h => h.1⟩
              · cases hc
                exact hleast (hscan.least h b rfl)
            · next hnot' =>
              refine ⟨by simp, ⟨fun h => absurd h (by simp), fun h => ?_⟩, fun h => absurd h (by simp)⟩
              obtain ⟨halways, m, hm⟩ := alwaysLeast_concat.1 h
              have hb := hscan.least (hscan.goes_on_iff.2 halways) b rfl
              obtain ⟨hmem, hbelow, hmx⟩ := isLeastOf_concat.1 hm
              rcases hmem with hmem | rfl
              · exact absurd (htrans b (hl b hb.1) m (hl m hmem) x hx (hb.2 m hmem) hmx) hnot'
              · exact absurd (hbelow b hb.1) hnot

end RunningLeast
