import Mathlib.Data.List.Nodup

namespace Payments.Lib

/-- Among elements with distinct keys one has the key of a given one. -/
theorem filter_key {α κ : Type} [DecidableEq κ] {f : α → κ} {xs : List α}
    (h : (xs.map f).Nodup) {a : α} (ha : a ∈ xs) : xs.filter (fun x => f x = f a) = [a] := by
  induction xs with
  | nil => cases ha
  | cons x xs ih =>
    obtain ⟨hx, hxs⟩ := List.nodup_cons.mp h
    rcases List.mem_cons.mp ha with rfl | ha
    · have hrest : xs.filter (fun y => f y = f a) = [] := by
        refine List.filter_eq_nil_iff.mpr (fun y hy hk => hx ?_)
        exact List.mem_map.mpr ⟨y, hy, of_decide_eq_true hk⟩
      simp [hrest]
    · have hne : f x ≠ f a := fun he => hx (List.mem_map.mpr ⟨a, ha, he.symm⟩)
      simpa [hne] using ih hxs ha

/-- Rows in storage order, no two of which share a primary key. -/
structure Table (ρ κ : Type) (key : ρ → κ) where
  rows : List ρ
  nodup : (rows.map key).Nodup

namespace Table

variable {ρ κ : Type} [DecidableEq κ] {key : ρ → κ}

def empty : Table ρ κ key := ⟨[], by simp⟩

def find? (T : Table ρ κ key) (k : κ) : Option ρ :=
  T.rows.find? (fun r => key r = k)

/-- Append a row, unless its key is taken. -/
def insert (T : Table ρ κ key) (r : ρ) : Table ρ κ key where
  rows := if key r ∈ T.rows.map key then T.rows else T.rows ++ [r]
  nodup := by
    split
    · exact T.nodup
    · rename_i h
      simpa [List.nodup_append, T.nodup] using fun x hx he => h (List.mem_map.mpr ⟨x, hx, he⟩)

/-- Rewrite the row under a key, which the rewriting keeps. -/
def update (T : Table ρ κ key) (k : κ) (f : ρ → ρ) (hf : ∀ r, key (f r) = key r) :
    Table ρ κ key where
  rows := T.rows.map (fun r => if key r = k then f r else r)
  nodup := by
    have he : key ∘ (fun r => if key r = k then f r else r) = key := by
      funext r
      simp only [Function.comp_apply]
      split
      · exact hf r
      · rfl
    rw [List.map_map, he]
    exact T.nodup

variable {T : Table ρ κ key} {r x y : ρ} {k : κ} {f : ρ → ρ} {hf : ∀ r, key (f r) = key r}

theorem find_some : T.find? k = some r ↔ r ∈ T.rows ∧ key r = k := by
  constructor
  · intro h
    exact ⟨List.mem_of_find?_eq_some h, by simpa using List.find?_some h⟩
  · rintro ⟨hm, rfl⟩
    unfold find?
    obtain ⟨rows, nodup⟩ := T
    simp only at hm ⊢
    induction rows with
    | nil => simp at hm
    | cons y ys ih =>
      simp only [List.map_cons, List.nodup_cons] at nodup
      rcases List.mem_cons.mp hm with rfl | hm
      · simp
      · have hne : key y ≠ key r := fun he => nodup.1 (List.mem_map.mpr ⟨r, hm, he.symm⟩)
        simp [hne, ih nodup.2 hm]

theorem find_none : T.find? k = none ↔ ∀ r ∈ T.rows, key r ≠ k := by
  simp [find?]

theorem find_mem (h : r ∈ T.rows) : T.find? (key r) = some r :=
  find_some.mpr ⟨h, rfl⟩

/-- A key determines its row. -/
theorem eq_of_key (hx : x ∈ T.rows) (hy : y ∈ T.rows) (h : key x = key y) : x = y := by
  have := find_mem hx
  rw [h, find_mem hy] at this
  exact (Option.some.inj this).symm

theorem mem_insert : x ∈ (T.insert r).rows ↔
    x ∈ T.rows ∨ (x = r ∧ T.find? (key r) = none) := by
  simp only [insert]
  split
  · rename_i h
    obtain ⟨y, hy, he⟩ := List.mem_map.mp h
    have hn : T.find? (key r) ≠ none := by
      rw [← he, find_mem hy]
      exact Option.some_ne_none y
    simp [hn]
  · rename_i h
    have hn : T.find? (key r) = none :=
      find_none.mpr (fun y hy he => h (List.mem_map.mpr ⟨y, hy, he⟩))
    simp [hn]

theorem rows_insert (h : T.find? (key r) = none) : (T.insert r).rows = T.rows ++ [r] := by
  have hn : key r ∉ T.rows.map key := by
    intro hm
    obtain ⟨x, hx, he⟩ := List.mem_map.mp hm
    exact find_none.mp h x hx he
  simp only [insert, hn, ↓reduceIte]

theorem mem_update : x ∈ (T.update k f hf).rows ↔
    (x ∈ T.rows ∧ key x ≠ k) ∨ ∃ y ∈ T.rows, key y = k ∧ f y = x := by
  simp only [update, List.mem_map]
  constructor
  · rintro ⟨y, hy, rfl⟩
    split
    · exact .inr ⟨y, hy, ‹_›, rfl⟩
    · exact .inl ⟨hy, ‹_›⟩
  · rintro (⟨hx, hk⟩ | ⟨y, hy, hk, rfl⟩)
    · exact ⟨x, hx, by simp [hk]⟩
    · exact ⟨y, hy, by simp [hk]⟩

theorem find_insert (j : κ) : (T.insert r).find? j =
    if key r = j then some ((T.find? j).getD r) else T.find? j := by
  split
  · rename_i h
    subst h
    apply find_some.mpr
    cases hf : T.find? (key r) with
    | none => exact ⟨mem_insert.mpr (.inr ⟨rfl, hf⟩), rfl⟩
    | some y =>
      obtain ⟨hm, hk⟩ := find_some.mp hf
      exact ⟨mem_insert.mpr (.inl hm), hk⟩
  · rename_i h
    cases hf : T.find? j with
    | none =>
      apply find_none.mpr
      intro x hx
      rcases mem_insert.mp hx with hx | ⟨rfl, _⟩
      · exact find_none.mp hf x hx
      · exact h
    | some y =>
      obtain ⟨hm, hk⟩ := find_some.mp hf
      exact find_some.mpr ⟨mem_insert.mpr (.inl hm), hk⟩

theorem find_update (j : κ) : (T.update k f hf).find? j =
    if k = j then (T.find? j).map f else T.find? j := by
  cases hj : T.find? j with
  | none =>
    have hn : (T.update k f hf).find? j = none := by
      apply find_none.mpr
      intro x hx
      rcases mem_update.mp hx with ⟨hx, _⟩ | ⟨y, hy, _, rfl⟩
      · exact find_none.mp hj x hx
      · rw [hf]
        exact find_none.mp hj y hy
    simp [hn]
  | some y =>
    obtain ⟨hm, rfl⟩ := find_some.mp hj
    split
    · rename_i h
      exact find_some.mpr ⟨mem_update.mpr (.inr ⟨y, hm, h.symm, rfl⟩), hf y⟩
    · rename_i h
      exact find_some.mpr ⟨mem_update.mpr (.inl ⟨hm, Ne.symm h⟩), rfl⟩

end Table

end Payments.Lib
