import Mathlib.Tactic

namespace stoned.program

/-! Buffers: cells that are allocated in advance, of which the first ones are in
use. -/

/-- The cells of a buffer, as many as its capacity. A cell is `none` until it is
written. -/
structure Buffer (α : Type) where
  cells : List (Option α)
  len : Nat

namespace Buffer
variable {α : Type}

def cap (b : Buffer α) : Nat := b.cells.length

def empty : Buffer α := { cells := [], len := 0 }

/-- Fails outside the buffer and where nothing was written. -/
def read (b : Buffer α) (i : Nat) : Option α := (b.cells[i]?).join

/-- Fails outside the buffer. -/
def write (b : Buffer α) (i : Nat) (v : α) : Option (Buffer α) :=
  if i < b.cap then some { b with cells := b.cells.set i (some v) } else none

/-- Copies `n` cells, which may overlap. Fails outside the buffer. -/
def move (b : Buffer α) (dst src n : Nat) : Option (Buffer α) :=
  if dst + n ≤ b.cap ∧ src + n ≤ b.cap then
    some { b with cells := b.cells.take dst ++ (b.cells.drop src).take n ++ b.cells.drop (dst + n) }
  else none

/-- A larger capacity. -/
def reserve (b : Buffer α) (cap : Nat) : Buffer α :=
  { b with cells := b.cells ++ List.replicate (cap - b.cap) none }

/-- The capacity is doubled, from eight on. -/
def grow (b : Buffer α) : Buffer α := b.reserve (if b.cap = 0 then 8 else b.cap * 2)

def with_len (b : Buffer α) (len : Nat) : Buffer α := { b with len }

/-- Adds an element at the end. -/
def push (b : Buffer α) (v : α) : Option (Buffer α) :=
  let b := if b.cap ≤ b.len then b.grow else b
  (b.write b.len v).map fun b => b.with_len (b.len + 1)

/-- Writes some values one behind the other. -/
def write_all (b : Buffer α) (i : Nat) : List α → Option (Buffer α)
  | [] => some b
  | v :: vs => (b.write i v).bind fun b => b.write_all (i + 1) vs

/-- The buffer is in use for a list. -/
structure Holds (b : Buffer α) (xs : List α) : Prop where
  len_eq : b.len = xs.length
  cells_eq : ∃ spare, b.cells = xs.map some ++ spare

variable {b : Buffer α} {xs ys : List α} {i n dst src : Nat} {v : α}

theorem holds_empty : (empty : Buffer α).Holds [] := ⟨rfl, [], rfl⟩

theorem Holds.len_le_cap (h : b.Holds xs) : b.len ≤ b.cap := by
  obtain ⟨spare, hcells⟩ := h.cells_eq
  rw [h.len_eq, cap, hcells]
  simp

theorem Holds.unique (h : b.Holds xs) (h' : b.Holds ys) : xs = ys := by
  obtain ⟨spare, hcells⟩ := h.cells_eq
  obtain ⟨spare', hcells'⟩ := h'.cells_eq
  have hlen : (xs.map some).length = (ys.map some).length := by
    rw [List.length_map, List.length_map, ← h.len_eq, h'.len_eq]
  have hmap := (List.append_inj (hcells.symm.trans hcells') hlen).1
  exact List.map_injective_iff.mpr (Option.some_injective α) hmap

theorem Holds.read (h : b.Holds xs) (hi : i < xs.length) : b.read i = some xs[i] := by
  obtain ⟨spare, hcells⟩ := h.cells_eq
  rw [Buffer.read, hcells, List.getElem?_append_left (by simpa using hi)]
  simp [hi]

theorem Holds.write (h : b.Holds xs) (hi : i < xs.length) : ∃ b', b.write i v = some b' ∧ b'.Holds (xs.set i v) := by
  obtain ⟨spare, hcells⟩ := h.cells_eq
  have hcap : i < b.cap := hi.trans_le (h.len_eq ▸ h.len_le_cap)
  refine ⟨_, if_pos hcap, ?_, spare, ?_⟩
  · simp [h.len_eq]
  · simp [hcells, hi, List.map_set]

/-- What is cut off stays allocated. -/
theorem Holds.with_len (h : b.Holds xs) (hn : n ≤ xs.length) : (b.with_len n).Holds (xs.take n) := by
  obtain ⟨spare, hcells⟩ := h.cells_eq
  refine ⟨by simp [Buffer.with_len, hn], (xs.drop n).map some ++ spare, ?_⟩
  rw [Buffer.with_len, hcells, ← List.append_assoc, ← List.map_append, List.take_append_drop]

theorem Holds.reserve (h : b.Holds xs) : (b.reserve n).Holds xs := by
  obtain ⟨spare, hcells⟩ := h.cells_eq
  exact ⟨h.len_eq, spare ++ List.replicate (n - b.cap) none, by simp [Buffer.reserve, hcells]⟩

theorem cap_reserve : (b.reserve n).cap = max b.cap n := by
  simp only [Buffer.reserve, cap, List.length_append, List.length_replicate]
  omega

theorem Holds.grow (h : b.Holds xs) : b.grow.Holds xs := h.reserve

/-- A full buffer has room after it has grown. -/
theorem len_lt_cap_grow (hle : b.len ≤ b.cap) : b.len < b.grow.cap := by
  rw [Buffer.grow, cap_reserve]
  split <;> omega

theorem Holds.push (h : b.Holds xs) (v : α) : ∃ b', b.push v = some b' ∧ b'.Holds (xs ++ [v]) := by
  have happend : ∀ b : Buffer α, b.Holds xs → b.len < b.cap →
      ∃ b', (b.write b.len v).map (fun b => b.with_len (b.len + 1)) = some b' ∧ b'.Holds (xs ++ [v]) := by
    intro b h hroom
    obtain ⟨spare, hcells⟩ := h.cells_eq
    rw [Buffer.write, if_pos hroom]
    refine ⟨_, rfl, by simp [Buffer.with_len, h.len_eq], spare.tail, ?_⟩
    cases spare with
    | nil =>
      rw [cap, hcells, h.len_eq] at hroom
      simp at hroom
    | cons cell spare => simp [Buffer.with_len, hcells, h.len_eq]
  rw [Buffer.push]
  split
  · exact happend _ h.grow (len_lt_cap_grow h.len_le_cap)
  · exact happend b h (by omega)

/-- Some cells are free in the middle. -/
def Gap (b : Buffer α) (before : List α) (n : Nat) (after : List α) : Prop :=
  ∃ gap spare, gap.length = n ∧ b.cells = before.map some ++ gap ++ after.map some ++ spare

/-- Moving the end of the list away opens a gap. -/
theorem Holds.open_gap {before after : List α} (h : b.Holds (before ++ after))
    (hroom : before.length + after.length + n ≤ b.cap) :
    ∃ b', b.move (before.length + n) before.length (b.len - before.length) = some b' ∧ b'.len = b.len ∧
      b'.Gap before n after := by
  obtain ⟨spare, hcells⟩ := h.cells_eq
  have hlen : b.len = before.length + after.length := by simp [h.len_eq]
  have hfits : before.length + n + (b.len - before.length) ≤ b.cap ∧
      before.length + (b.len - before.length) ≤ b.cap := by omega
  refine ⟨_, if_pos hfits, rfl, (after.map some ++ spare).take n, spare.drop n, ?_, ?_⟩
  · rw [cap, hcells] at hroom
    simp only [List.map_append, List.length_append, List.length_map] at hroom
    simp only [List.length_take, List.length_append, List.length_map]
    omega
  · have hbefore : before.length = (before.map some).length := by simp
    have hafter : b.len - before.length = (after.map some).length := by simp [hlen]
    rw [hcells, hafter, hbefore, List.map_append]
    simp only [List.append_assoc, Nat.add_assoc, List.take_length_add_append, List.drop_left, List.take_left,
      List.drop_length_add_append]
    rw [Nat.add_comm n, List.drop_length_add_append]

theorem Gap.write_all {before after vs : List α} (h : b.Gap before vs.length after) :
    ∃ b', b.write_all before.length vs = some b' ∧ b'.len = b.len ∧ b'.Gap (before ++ vs) 0 after := by
  induction vs generalizing b before with
  | nil => exact ⟨b, rfl, rfl, by simpa using h⟩
  | cons v vs ih =>
    obtain ⟨gap, spare, hgap, hcells⟩ := h
    obtain ⟨cell, gap, rfl⟩ := List.exists_cons_of_length_eq_add_one hgap
    have hroom : before.length < b.cap := by simp [cap, hcells]
    have hwritten : Gap { b with cells := b.cells.set before.length (some v) } (before ++ [v]) vs.length after :=
      ⟨gap, spare, by simpa using hgap, by simp [hcells]⟩
    obtain ⟨b', hwrite, hlen, hfilled⟩ := ih hwritten
    rw [Buffer.write_all, Buffer.write, if_pos hroom, Option.bind_some]
    exact ⟨b', by simpa using hwrite, hlen, by simpa using hfilled⟩

theorem Gap.holds {before after : List α} (h : b.Gap before 0 after) :
    (b.with_len (before.length + after.length)).Holds (before ++ after) := by
  obtain ⟨gap, spare, hgap, hcells⟩ := h
  obtain rfl := List.length_eq_zero_iff.mp hgap
  exact ⟨by simp [Buffer.with_len], spare, by simp [Buffer.with_len, hcells]⟩

/-- Moving the end of the list closes a gap. -/
theorem Holds.close_gap {before removed after : List α} (h : b.Holds (before ++ removed ++ after)) :
    ∃ b', b.move before.length (before.length + removed.length) after.length = some b' ∧
      (b'.with_len (b.len - removed.length)).Holds (before ++ after) := by
  obtain ⟨spare, hcells⟩ := h.cells_eq
  have hlen : b.len = before.length + removed.length + after.length := by simp [h.len_eq, Nat.add_assoc]
  have hcap := h.len_le_cap
  have hfits : before.length + after.length ≤ b.cap ∧
      before.length + removed.length + after.length ≤ b.cap := by omega
  have hmoved : b.move before.length (before.length + removed.length) after.length = some _ :=
    if_pos hfits
  refine ⟨_, hmoved, ?_, b.cells.drop (before.length + after.length), ?_⟩
  · simp only [Buffer.with_len, hlen, List.length_append]
    omega
  · rw [Buffer.with_len, hcells]
    simp [List.take_append, List.drop_append]

end Buffer

/-! ### Rewriting a list in place -/

/-- The reader is at `i` and the writer not ahead of it: in front of the writer are
the new elements, from the reader on the old ones. -/
structure Rewritten {α : Type} (xs front : List α) (i : Nat) (zs : List α) : Prop where
  length_eq : zs.length = xs.length
  le : front.length ≤ i
  inside : i ≤ xs.length
  front_eq : zs.take front.length = front
  rest : zs.drop i = xs.drop i

namespace Rewritten
variable {α : Type} {xs front zs : List α} {i p : Nat}

theorem start (hp : p ≤ i) (hi : i ≤ xs.length) : Rewritten xs (xs.take p) i xs where
  length_eq := rfl
  le := (List.length_take_le p xs).trans hp
  inside := hi
  front_eq := by rw [List.length_take_of_le (hp.trans hi)]
  rest := rfl

theorem get (h : Rewritten xs front i zs) (hlt : i < xs.length) (hin : i < zs.length) : zs[i] = xs[i] := by
  have hrest := h.rest
  rw [List.drop_eq_getElem_cons hin, List.drop_eq_getElem_cons hlt] at hrest
  exact (List.cons.inj hrest).1

theorem writer_lt (h : Rewritten xs front i zs) (hlt : i < xs.length) : front.length < zs.length := by
  have hle := h.le
  rw [h.length_eq]
  omega

/-- Nothing is written. -/
theorem skip (h : Rewritten xs front i zs) (hlt : i < xs.length) : Rewritten xs front (i + 1) zs where
  length_eq := h.length_eq
  le := h.le.trans (Nat.le_succ i)
  inside := hlt
  front_eq := h.front_eq
  rest := by rw [← List.drop_drop, ← List.drop_drop, h.rest]

theorem put (h : Rewritten xs front i zs) (hlt : i < xs.length) (v : α) :
    Rewritten xs (front ++ [v]) (i + 1) (zs.set front.length v) where
  length_eq := by rw [List.length_set, h.length_eq]
  le := by
    rw [List.length_append, List.length_singleton]
    exact Nat.succ_le_succ h.le
  inside := hlt
  front_eq := by
    have hw := h.writer_lt hlt
    rw [List.length_append, List.length_singleton, List.take_succ_eq_append_getElem (by simpa using hw),
      List.take_set_of_le le_rfl, h.front_eq]
    simp
  rest := by
    have hle := h.le
    rw [List.drop_set_of_lt (by omega), ← List.drop_drop, ← List.drop_drop, h.rest]

/-- The writer has caught up with the reader. -/
theorem eq (h : Rewritten xs front i zs) (hlen : front.length = i) : zs = front ++ xs.drop i := by
  rw [← List.take_append_drop i zs, h.rest, ← hlen, h.front_eq]

end Rewritten

end stoned.program
