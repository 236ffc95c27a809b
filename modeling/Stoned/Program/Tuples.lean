import Mathlib.Data.List.Basic
import Mathlib.Order.Basic
import Mathlib.Tactic.Common

namespace stoned.program

/-! Tuples of numbers that are put together from the front, where the entries so far
say what the next one may be. -/

/-- What may come next, in ascending order, and what is known after it. -/
structure Choosing (σ : Type) where
  next : σ → List Nat
  after : σ → Nat → σ
  ascending : ∀ s, (next s).Pairwise (· < ·)

namespace Choosing
variable {σ : Type} {c : Choosing σ} {s : σ} {n : Nat} {t : List Nat}

/-- The tuples of a length. -/
def tuples (c : Choosing σ) : Nat → σ → List (List Nat)
  | 0, _ => [[]]
  | n + 1, s => (c.next s).flatMap fun i => (c.tuples n (c.after s i)).map (i :: ·)

/-- Every entry of the tuple may be where it is. -/
def Allows (c : Choosing σ) : σ → List Nat → Prop
  | _, [] => True
  | s, i :: t => i ∈ c.next s ∧ c.Allows (c.after s i) t

theorem mem_tuples : t ∈ c.tuples n s ↔ t.length = n ∧ c.Allows s t := by
  induction n generalizing s t with
  | zero =>
    rw [tuples, List.mem_singleton, List.length_eq_zero_iff]
    constructor
    · rintro rfl
      exact ⟨rfl, trivial⟩
    · exact And.left
  | succ n ih =>
    simp only [tuples, List.mem_flatMap, List.mem_map, ih]
    constructor
    · rintro ⟨i, hi, t, ⟨hlength, hallows⟩, rfl⟩
      exact ⟨by rw [List.length_cons, hlength], hi, hallows⟩
    · rintro ⟨hlength, hallows⟩
      obtain ⟨i, t, rfl⟩ := List.exists_cons_of_length_eq_add_one hlength
      exact ⟨i, hallows.1, t, ⟨Nat.succ_inj.mp hlength, hallows.2⟩, rfl⟩

/-- The tuples come in lexicographic order, none of them twice. -/
theorem tuples_ascending : (c.tuples n s).Pairwise (· < ·) := by
  induction n generalizing s with
  | zero => exact List.pairwise_singleton ..
  | succ n ih =>
    rw [tuples, List.pairwise_flatMap]
    constructor
    · intro i _
      refine List.pairwise_map.mpr (ih.imp fun hlt => ?_)
      exact List.cons_lt_cons_iff.mpr (.inr ⟨rfl, hlt⟩)
    · refine (c.ascending s).imp fun hlt t ht t' ht' => ?_
      obtain ⟨rest, -, rfl⟩ := List.mem_map.mp ht
      obtain ⟨rest', -, rfl⟩ := List.mem_map.mp ht'
      exact List.cons_lt_cons_iff.mpr (.inl hlt)

end Choosing

/-! ### Loops that fail -/

section folds
variable {α β γ : Type} {f : β → α → Option β} {P : β → Prop} {b b' : β} {l : List α}

/-- What every round keeps holds at the end. -/
theorem foldlM_keeps (hf : ∀ b, ∀ a ∈ l, ∀ b', P b → f b a = some b' → P b') (hb : P b) (h : l.foldlM f b = some b') :
    P b' := by
  induction l generalizing b with
  | nil =>
    cases h
    exact hb
  | cons a l ih =>
    rw [List.foldlM_cons] at h
    obtain ⟨b₁, hround, hrest⟩ := Option.bind_eq_some_iff.mp h
    exact ih (fun b a ha => hf b a (List.mem_cons_of_mem _ ha)) (hf b a (List.mem_cons_self ..) b₁ hb hround) hrest

/-- A loop fails where one of its rounds is sure to. -/
theorem foldlM_fails {a : α} (hf : ∀ b, ∀ a ∈ l, ∀ b', P b → f b a = some b' → P b') (hb : P b) (ha : a ∈ l)
    (hfail : ∀ b, P b → f b a = none) : l.foldlM f b = none := by
  induction l generalizing b with
  | nil => cases ha
  | cons a' l ih =>
    rw [List.foldlM_cons]
    cases hround : f b a' with
    | none => rfl
    | some b₁ =>
      have hkept : P b₁ := hf b a' (List.mem_cons_self ..) b₁ hb hround
      rcases List.mem_cons.mp ha with rfl | hrest
      · rw [hfail b hb] at hround
        cases hround
      · exact ih (fun b a ha => hf b a (List.mem_cons_of_mem _ ha)) hkept hrest

/-- Every round adds something to what has been collected. -/
theorem foldlM_collects {f : β × List γ → α → Option (β × List γ)} {g : α → List γ} (found : List γ)
    (hf : ∀ b found, ∀ a ∈ l, P b → ∃ b', f (b, found) a = some (b', found ++ g a) ∧ P b') (hb : P b) :
    ∃ b', l.foldlM f (b, found) = some (b', found ++ l.flatMap g) ∧ P b' := by
  induction l generalizing b found with
  | nil => exact ⟨b, by rw [List.flatMap_nil, List.append_nil]; rfl, hb⟩
  | cons a l ih =>
    obtain ⟨b₁, hround, hkept⟩ := hf b found a (List.mem_cons_self ..) hb
    obtain ⟨b', hrest, hend⟩ := ih (found ++ g a) (fun b found a ha => hf b found a (List.mem_cons_of_mem _ ha)) hkept
    refine ⟨b', ?_, hend⟩
    rw [List.foldlM_cons, hround]
    exact hrest.trans (by rw [List.flatMap_cons, List.append_assoc])

end folds

end stoned.program
