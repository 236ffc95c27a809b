import Mathlib.Data.List.Perm.Basic
import Mathlib.Order.Lattice

namespace stoned.program

variable {α : Type} {before : α → α → Bool} {key m : α} {xs ys front behind back done rest : List α}

/-! Insertion sort, with each key brought down from the back. -/

/-- A key goes in front of the elements it comes before; `front` is taken from its
last element on, and `behind` are those that were passed. -/
def insert_back (before : α → α → Bool) (key : α) : List α → List α → List α
  | [], behind => key :: behind
  | prev :: front, behind =>
    if before key prev then insert_back before key front (prev :: behind) else (prev :: front).reverse ++ key :: behind

def insertion (before : α → α → Bool) : List α → List α → List α
  | done, [] => done
  | done, key :: rest => insertion before (insert_back before key done.reverse []) rest

/-- Among some elements, coming before another one is a strict weak order: not
coming before is transitive. -/
structure WeakOrder (before : α → α → Bool) (xs : List α) : Prop where
  asymm : ∀ a ∈ xs, ∀ b ∈ xs, before a b = true → before b a = false
  trans : ∀ a ∈ xs, ∀ b ∈ xs, ∀ c ∈ xs, before a b = false → before b c = false → before a c = false

/-- No element comes before one that stands in front of it. -/
def InOrder (before : α → α → Bool) (xs : List α) : Prop := xs.Pairwise fun a b => before b a = false

/-- Elements of which none comes before another one stay in the order they are in. -/
def Stable (before : α → α → Bool) (xs ys : List α) : Prop :=
  ∀ p : α → Bool, (∀ a ∈ xs, ∀ b ∈ xs, p a = true → p b = true → before a b = false) → ys.filter p = xs.filter p

/-- A list is another one sorted. -/
structure Sorts (before : α → α → Bool) (xs ys : List α) : Prop where
  perm : ys.Perm xs
  ordered : InOrder before ys
  stable : Stable before xs ys

theorem WeakOrder.mono (h : WeakOrder before xs) (hsub : ys ⊆ xs) : WeakOrder before ys where
  asymm a ha b hb := h.asymm a (hsub ha) b (hsub hb)
  trans a ha b hb c hc := h.trans a (hsub ha) b (hsub hb) c (hsub hc)

theorem WeakOrder.irrefl (h : WeakOrder before xs) {a : α} (ha : a ∈ xs) : before a a = false := by
  cases hself : before a a with
  | false => rfl
  | true => exact hself.symm.trans (h.asymm a ha a ha hself)

/-- Turned around an order is one still. -/
theorem WeakOrder.flip (h : WeakOrder before xs) : WeakOrder (fun a b => before b a) xs where
  asymm a ha b hb := h.asymm b hb a ha
  trans a ha b hb c hc hab hbc := h.trans c hc b hb a ha hbc hab

/-! ### What an insertion keeps -/

theorem insert_back_perm (before : α → α → Bool) (key : α) (front behind : List α) :
    (insert_back before key front behind).Perm (key :: (front.reverse ++ behind)) := by
  induction front generalizing behind with
  | nil => rfl
  | cons prev front ih =>
    rw [insert_back]
    split
    · refine (ih _).trans (List.Perm.cons key ?_)
      rw [List.reverse_cons, List.append_assoc]
      rfl
    · exact List.perm_middle

theorem insert_back_perm_cons : (insert_back before key done.reverse []).Perm (key :: done) := by
  simpa using insert_back_perm before key done.reverse []

theorem insertion_perm : (insertion before done rest).Perm (done ++ rest) := by
  induction rest generalizing done with
  | nil => rw [insertion, List.append_nil]
  | cons key rest ih => exact ih.trans ((insert_back_perm_cons.append_right rest).trans List.perm_middle.symm)

/-- A key only moves past elements that it comes before. -/
theorem insert_back_filter {p : α → Bool} (h : ∀ a ∈ front, p key = true → p a = true → before key a = false) :
    (insert_back before key front behind).filter p = front.reverse.filter p ++ (key :: behind).filter p := by
  induction front generalizing behind with
  | nil => rfl
  | cons prev front ih =>
    rw [insert_back]
    split
    · next hbefore =>
      rw [ih fun a ha => h a (List.mem_cons_of_mem _ ha), List.reverse_cons, List.filter_append, List.append_assoc]
      congr 1
      cases hkey : p key with
      | false =>
        simp only [List.filter_cons, hkey, Bool.false_eq_true, if_false, List.filter_nil]
        split <;> rfl
      | true =>
        cases hprev : p prev with
        | false => simp [List.filter_cons, hprev]
        | true => exact absurd (hbefore.symm.trans (h prev List.mem_cons_self hkey hprev)) (by decide)
    · exact List.filter_append ..

theorem insertion_filter {p : α → Bool}
    (h : ∀ a ∈ done ++ rest, ∀ b ∈ done ++ rest, p a = true → p b = true → before a b = false) :
    (insertion before done rest).filter p = (done ++ rest).filter p := by
  induction rest generalizing done with
  | nil => rw [insertion, List.append_nil]
  | cons key rest ih =>
    have hperm : (insert_back before key done.reverse [] ++ rest).Perm (done ++ key :: rest) :=
      (insert_back_perm_cons.append_right rest).trans List.perm_middle.symm
    have hkey : ∀ a ∈ done.reverse, p key = true → p a = true → before key a = false := fun a ha =>
      h key (by simp) a (List.mem_append_left _ (List.mem_reverse.mp ha))
    rw [insertion, ih fun a ha b hb => h a (hperm.mem_iff.mp ha) b (hperm.mem_iff.mp hb), List.filter_append,
      insert_back_filter hkey, List.reverse_reverse, List.append_assoc, ← List.filter_append, ← List.filter_append]
    rfl

theorem insert_back_ordered (h : WeakOrder before (key :: (front.reverse ++ behind))) (hfront : InOrder before (front.reverse ++ behind))
    (hbehind : ∀ b ∈ behind, before key b = true) : InOrder before (insert_back before key front behind) := by
  induction front generalizing behind with
  | nil =>
    refine List.pairwise_cons.mpr ⟨fun b hb => ?_, hfront⟩
    exact h.asymm key List.mem_cons_self b (List.mem_cons_of_mem _ hb) (hbehind b hb)
  | cons prev front ih =>
    have hsplit : (prev :: front).reverse ++ behind = front.reverse ++ prev :: behind := by simp
    rw [insert_back]
    split
    · next hbefore =>
      rw [hsplit] at h hfront
      exact ih h hfront fun b hb => (List.mem_cons.mp hb).elim (fun heq => heq ▸ hbefore) (hbehind b)
    · next hnot =>
      have hprev : before key prev = false := Bool.eq_false_iff.mpr hnot
      obtain ⟨hleft, hright, hacross⟩ := List.pairwise_append.mp hfront
      refine List.pairwise_append.mpr ⟨hleft, List.pairwise_cons.mpr ⟨fun b hb => ?_, hright⟩, fun a ha b hb => ?_⟩
      · exact h.asymm key List.mem_cons_self b (by simp [hb]) (hbehind b hb)
      · rcases List.mem_cons.mp hb with rfl | hb
        · -- What stands in front of `prev` is not after it, and so not after the key.
          have hle : before prev a = false := by
            rcases List.mem_cons.mp (List.mem_reverse.mp ha) with rfl | hin
            · exact h.irrefl (by simp)
            · rw [List.reverse_cons] at hleft
              exact (List.pairwise_append.mp hleft).2.2 a (List.mem_reverse.mpr hin) prev (List.mem_singleton_self _)
          exact h.trans b List.mem_cons_self prev (by simp) a (List.mem_cons_of_mem _ (List.mem_append_left _ ha)) hprev hle
        · exact hacross a ha b hb

theorem insertion_ordered (h : WeakOrder before (done ++ rest)) (hdone : InOrder before done) :
    InOrder before (insertion before done rest) := by
  induction rest generalizing done with
  | nil => exact hdone
  | cons key rest ih =>
    have hperm : (insert_back before key done.reverse [] ++ rest).Perm (done ++ key :: rest) :=
      (insert_back_perm_cons.append_right rest).trans List.perm_middle.symm
    refine ih (h.mono hperm.subset) (insert_back_ordered (h.mono fun a ha => ?_) ?_ nofun)
    · simp only [List.reverse_reverse, List.append_nil, List.mem_cons] at ha
      exact ha.elim (fun heq => by simp [heq]) (List.mem_append_left _)
    · rwa [List.reverse_reverse, List.append_nil]

/-- Insertion sort sorts. -/
theorem insertion_sorts (h : WeakOrder before xs) : Sorts before xs (insertion before [] xs) where
  perm := insertion_perm
  ordered := insertion_ordered h .nil
  stable _ hp := insertion_filter hp

/-- Elements keep the order they are in whatever is brought in later. -/
theorem insert_back_sublist (before : α → α → Bool) (key : α) (front behind : List α) :
    (front.reverse ++ behind).Sublist (insert_back before key front behind) := by
  induction front generalizing behind with
  | nil => exact List.sublist_cons_self _ _
  | cons prev front ih =>
    rw [insert_back]
    split
    · simpa using ih (prev :: behind)
    · exact (List.Sublist.refl _).append (List.sublist_cons_self _ _)

theorem insertion_sublist (before : α → α → Bool) (done rest : List α) : done.Sublist (insertion before done rest) := by
  induction rest generalizing done with
  | nil => exact .refl _
  | cons key rest ih =>
    have hstep : done.Sublist (insert_back before key done.reverse []) := by
      simpa using insert_back_sublist before key done.reverse []
    exact hstep.trans (ih _)

/-- To have every arrangement of some elements sorted takes an order of them. -/
theorem weakOrder_of_inOrder (hself : ∀ a ∈ xs, before a a = false)
    (h : ∀ ys, ys.Perm xs → InOrder before (insertion before [] ys)) : WeakOrder before xs := by
  have harranged : ∀ l : List α, l.Nodup → l ⊆ xs → ∃ rest, InOrder before (insertion before [] (l ++ rest)) := by
    intro l hnodup hsub
    obtain ⟨l', hperm, hsublist⟩ := List.subperm_of_subset hnodup hsub
    obtain ⟨rest, hrest⟩ := hsublist.exists_perm_append
    exact ⟨rest, h _ ((hperm.symm.append_right rest).trans hrest.symm)⟩
  constructor
  · intro a ha b hb hab
    by_cases heq : a = b
    · subst heq
      exact hself a ha
    · cases hba : before b a with
      | false => rfl
      | true =>
        obtain ⟨rest, hordered⟩ := harranged [a, b] (by simp [heq]) (by simp [ha, hb])
        have hsublist : [b, a].Sublist (insertion before [] ([a, b] ++ rest)) := by
          simpa [insertion, insert_back, hba] using insertion_sublist before [b, a] rest
        have hno := (List.pairwise_cons.mp (hordered.sublist hsublist)).1 a (List.mem_singleton_self _)
        exact absurd (hab.symm.trans hno) (by decide)
  · intro a ha b hb c hc hab hbc
    by_cases hdistinct : a ≠ b ∧ b ≠ c ∧ a ≠ c
    · obtain ⟨hab', hbc', hac'⟩ := hdistinct
      obtain ⟨rest, hordered⟩ := harranged [c, b, a] (by simp [hab'.symm, hbc'.symm, hac'.symm]) (by simp [ha, hb, hc])
      -- Each of the three is found to be in its place.
      have hsublist : [c, b, a].Sublist (insertion before [] ([c, b, a] ++ rest)) := by
        simpa [insertion, insert_back, hab, hbc] using insertion_sublist before [c, b, a] rest
      exact (List.pairwise_cons.mp (hordered.sublist hsublist)).1 a (by simp)
    · rw [not_and_or, not_and_or, not_not, not_not, not_not] at hdistinct
      rcases hdistinct with rfl | rfl | rfl
      · exact hbc
      · exact hab
      · exact hself a ha

/-- Comparing what elements stand for orders them. -/
theorem WeakOrder.of_rank {β : Type} [LinearOrder β] (f : α → β) (h : ∀ a ∈ xs, ∀ b ∈ xs, before a b = true ↔ f a < f b) :
    WeakOrder before xs where
  asymm a ha b hb hab := Bool.eq_false_iff.mpr fun hba => lt_asymm ((h a ha b hb).mp hab) ((h b hb a ha).mp hba)
  trans a ha b hb c hc hab hbc := by
    refine Bool.eq_false_iff.mpr fun hac => ?_
    have hba : f b ≤ f a := not_lt.mp fun hlt => Bool.eq_false_iff.mp hab ((h a ha b hb).mpr hlt)
    have hcb : f c ≤ f b := not_lt.mp fun hlt => Bool.eq_false_iff.mp hbc ((h b hb c hc).mpr hlt)
    exact absurd ((h a ha c hc).mp hac) (not_lt.mpr (le_trans hcb hba))

/-! ### The least element -/

/-- An element comes before those in front of it, and none comes before it. -/
def Leads (before : α → α → Bool) (m : α) (xs : List α) : Prop :=
  ∃ front back, xs = front ++ m :: back ∧ (∀ a ∈ front, before m a = true) ∧ ∀ a ∈ back, before a m = false

theorem Leads.unique {n : α} (hm : Leads before m xs) (hn : Leads before n xs) : m = n := by
  obtain ⟨front, back, hxs, hfront, hback⟩ := hm
  obtain ⟨front', back', hxs', hfront', hback'⟩ := hn
  rw [hxs] at hxs'
  rcases List.append_eq_append_iff.mp hxs' with ⟨more, rfl, hrest⟩ | ⟨more, rfl, hrest⟩
  · cases more with
    | nil => exact (List.cons.inj hrest).1
    | cons x more =>
      obtain ⟨rfl, rfl⟩ := List.cons.inj hrest
      have hbefore := hfront' m (by simp)
      exact absurd (hbefore.symm.trans (hback n (by simp))) (by decide)
  · cases more with
    | nil => exact (List.cons.inj hrest).1.symm
    | cons x more =>
      obtain ⟨rfl, rfl⟩ := List.cons.inj hrest
      have hbefore := hfront n (by simp)
      exact absurd (hbefore.symm.trans (hback' m (by simp))) (by decide)

/-- The first element of a sorted list led the list from the start. -/
theorem Sorts.leads (h : WeakOrder before xs) (hsorts : Sorts before xs (m :: ys)) : Leads before m xs := by
  have hm : m ∈ xs := hsorts.perm.subset List.mem_cons_self
  have hleast : ∀ a ∈ xs, before a m = false := fun a ha => by
    rcases List.mem_cons.mp (hsorts.perm.mem_iff.mpr ha) with rfl | hin
    · exact h.irrefl ha
    · exact (List.pairwise_cons.mp hsorts.ordered).1 a hin
  -- Those that `m` does not come before are all as good as `m`, so they kept their order.
  have hfilter := hsorts.stable (fun a => !before m a) fun a ha b hb hpa hpb =>
    h.trans a ha m hm b hb (hleast a ha) (by simpa using hpb)
  rw [List.filter_cons_of_pos (by simp [h.irrefl hm])] at hfilter
  obtain ⟨front, back, hxs, hfront, -, -⟩ := List.filter_eq_cons_iff.mp hfilter.symm
  refine ⟨front, back, hxs, fun a ha => by simpa using hfront a ha, fun a ha => hleast a ?_⟩
  rw [hxs]
  exact List.mem_append_right _ (List.mem_cons_of_mem _ ha)

theorem Leads.ne_nil (hm : Leads before m xs) : xs ≠ [] := by
  obtain ⟨front, back, rfl, -⟩ := hm
  simp

theorem Sorts.nil_of_nil (hsorts : Sorts before xs ys) (hnil : ys = []) : xs = [] := by
  have hperm := hsorts.perm
  rw [hnil] at hperm
  exact hperm.symm.eq_nil

theorem Leads.least (h : WeakOrder before xs) (hm : Leads before m xs) : m ∈ xs ∧ ∀ a ∈ xs, before a m = false := by
  obtain ⟨front, back, rfl, hfront, hback⟩ := hm
  refine ⟨by simp, fun a ha => ?_⟩
  rcases List.mem_append.mp ha with hin | hin
  · exact h.asymm m (by simp) a ha (hfront a hin)
  · rcases List.mem_cons.mp hin with rfl | hin
    · exact h.irrefl ha
    · exact hback a hin

/-- The last element of a sorted list comes before none. -/
theorem Sorts.last (h : WeakOrder before xs) (hsorts : Sorts before xs ys) (hlast : m ∈ ys.getLast?) :
    m ∈ xs ∧ ∀ a ∈ xs, before m a = false := by
  obtain ⟨front, rfl⟩ := List.getLast?_eq_some_iff.mp hlast
  have hm : m ∈ xs := hsorts.perm.subset (by simp)
  refine ⟨hm, fun a ha => ?_⟩
  rcases List.mem_append.mp (hsorts.perm.mem_iff.mpr ha) with hin | hin
  · exact (List.pairwise_append.mp hsorts.ordered).2.2 a hin m (List.mem_singleton_self _)
  · rw [List.mem_singleton.mp hin]
    exact h.irrefl hm

/-- The first of the least elements, found in one pass. -/
def leader (before : α → α → Bool) : α → List α → α
  | m, [] => m
  | m, cur :: rest => leader before (if before cur m then cur else m) rest

theorem leader_leads (h : WeakOrder before (front ++ m :: back ++ rest)) (hfront : ∀ a ∈ front, before m a = true)
    (hback : ∀ a ∈ back, before a m = false) : Leads before (leader before m rest) (front ++ m :: back ++ rest) := by
  induction rest generalizing front m back with
  | nil =>
    rw [List.append_nil]
    exact ⟨front, back, rfl, hfront, hback⟩
  | cons cur rest ih =>
    rw [leader]
    split
    · next hbefore =>
      have hsplit : front ++ m :: back ++ cur :: rest = (front ++ m :: back) ++ cur :: [] ++ rest := by simp
      rw [hsplit] at h ⊢
      refine ih h (fun a ha => ?_) nofun
      -- The one so far does not come behind any of those passed.
      have hle : before a m = false := by
        rcases List.mem_append.mp ha with hin | hin
        · exact h.asymm m (by simp) a (by simp [hin]) (hfront a hin)
        · rcases List.mem_cons.mp hin with rfl | hin
          · exact h.irrefl (by simp)
          · exact hback a hin
      cases hcur : before cur a with
      | true => rfl
      | false =>
        have hin : a ∈ front ++ m :: back ++ [cur] ++ rest := List.mem_append_left _ (List.mem_append_left _ ha)
        exact absurd (hbefore.symm.trans (h.trans cur (by simp) a hin m (by simp) hcur hle)) (by decide)
    · next hnot =>
      have hsplit : front ++ m :: back ++ cur :: rest = front ++ m :: (back ++ [cur]) ++ rest := by simp
      rw [hsplit] at h ⊢
      refine ih h hfront fun a ha => ?_
      rcases List.mem_append.mp ha with hin | hin
      · exact hback a hin
      · rw [List.mem_singleton.mp hin]
        exact Bool.eq_false_iff.mpr hnot

theorem leader_leads_cons (h : WeakOrder before (m :: rest)) : Leads before (leader before m rest) (m :: rest) :=
  @leader_leads α before m [] [] rest h nofun nofun

end stoned.program
