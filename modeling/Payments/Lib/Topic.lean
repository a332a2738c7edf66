import Mathlib.Data.List.Basic

namespace Payments.Lib.Topic

section Patterns

variable {α : Type} [DecidableEq α] (star hash : α)

/-- Whether a pattern matches a list of words: `star` stands for one word, and `hash` for any
number of them. -/
def Matches : List α → List α → Bool
  | [], ws => ws.isEmpty
  | p :: ps, ws =>
    if p = hash then ws.tails.any (Matches ps)
    else match ws with
      | [] => false
      | w :: ws => (p = star || p = w) && Matches ps ws

/-- A pattern without the two matches itself only. -/
theorem matches_literal {ps : List α} (h : ∀ p ∈ ps, p ≠ star ∧ p ≠ hash) (ws : List α) :
    Matches star hash ps ws = true ↔ ps = ws := by
  induction ps generalizing ws with
  | nil => cases ws <;> simp [Matches]
  | cons p ps ih =>
    obtain ⟨hstar, hhash⟩ := h p List.mem_cons_self
    cases ws with
    | nil => simp [Matches, hhash]
    | cons w ws =>
      have hrest := ih (fun q hq => h q (List.mem_cons_of_mem _ hq)) ws
      simp [Matches, hhash, hstar, hrest]

end Patterns

/-- The words of a key. -/
def words (key : String) : List (List Char) := key.toList.splitOn '.'

theorem words_injective {a b : String} (h : words a = words b) : a = b := by
  have hlist : a.toList = b.toList := by
    calc a.toList = List.intercalate ['.'] (words a) := (List.intercalate_splitOn '.').symm
      _ = List.intercalate ['.'] (words b) := by rw [h]
      _ = b.toList := List.intercalate_splitOn '.'
  exact String.toList_inj.mp hlist

theorem words_append (a b : String) : words (a ++ ("." ++ b)) = words a ++ words b := by
  have hlist : (a ++ ("." ++ b)).toList = a.toList ++ '.' :: b.toList := by simp
  unfold words
  rw [hlist, List.splitOn_append_cons_self]

theorem words_single {a : String} (h : '.' ∉ a.toList) : words a = [a.toList] :=
  List.splitOn_eq_singleton h

/-- The binding key of a topic exchange matches a routing key. -/
def Binds (pattern key : String) : Bool := Matches ['*'] ['#'] (words pattern) (words key)

/-- A key without the wildcards of topics. -/
def Literal (key : String) : Prop := ∀ w ∈ words key, w ≠ ['*'] ∧ w ≠ ['#']

instance (key : String) : Decidable (Literal key) :=
  inferInstanceAs (Decidable (∀ w ∈ words key, w ≠ ['*'] ∧ w ≠ ['#']))

theorem Literal.binds {pattern : String} (h : Literal pattern) (key : String) :
    Binds pattern key = true ↔ pattern = key := by
  unfold Binds
  rw [matches_literal _ _ h]
  exact ⟨words_injective, congrArg words⟩

end Payments.Lib.Topic
