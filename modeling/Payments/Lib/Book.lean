import Mathlib.Data.List.Count
import Mathlib.Logic.Function.Basic

namespace Payments.Lib

/-- What is known of accounts that are opened under a key and settled once, and of the notices
that tell of both. An account without an outcome and a notice without an end are still open. -/
structure Book (Account Key Notice Outcome End : Type) where
  account : Account → Option (Option Outcome)
  key : Key → Option Account
  notice : Notice → Option (Option End)

/-- What is posted to a book, each in one step. -/
inductive Entry (Account Key Notice Outcome End : Type) where
  | opened (a : Account) (k : Key) (n : Notice)
  | settled (a : Account) (o : Outcome) (n : Notice)
  | ended (n : Notice) (e : End)

variable {Account Key Notice Outcome End : Type}

namespace Entry

variable [DecidableEq Account] [DecidableEq Notice]

/-- The entry opens the account. -/
def opens (a : Account) : Entry Account Key Notice Outcome End → Bool
  | .opened a' _ _ => a' = a
  | _ => false

def settles (a : Account) : Entry Account Key Notice Outcome End → Bool
  | .settled a' _ _ => a' = a
  | _ => false

/-- The entry is the one that its notice tells of. -/
def tells (n : Notice) : Entry Account Key Notice Outcome End → Bool
  | .opened _ _ n' | .settled _ _ n' => n' = n
  | .ended _ _ => false

end Entry

namespace Book

def empty : Book Account Key Notice Outcome End := ⟨fun _ => none, fun _ => none, fun _ => none⟩

variable [DecidableEq Account] [DecidableEq Key] [DecidableEq Notice]

/-- The entries that a book allows, and the book that each leaves. -/
inductive Posts : Book Account Key Notice Outcome End → Entry Account Key Notice Outcome End →
    Book Account Key Notice Outcome End → Prop
  | opened {b : Book Account Key Notice Outcome End} {a : Account} {k : Key} {n : Notice}
      (ha : b.account a = none) (hk : b.key k = none) (hn : b.notice n = none) :
      Posts b (.opened a k n)
        { account := Function.update b.account a (some none)
          key := Function.update b.key k (some a)
          notice := Function.update b.notice n (some none) }
  | settled {b : Book Account Key Notice Outcome End} {a : Account} {o : Outcome} {n : Notice}
      (ha : b.account a = some none) (hn : b.notice n = none) :
      Posts b (.settled a o n)
        { b with
          account := Function.update b.account a (some (some o))
          notice := Function.update b.notice n (some none) }
  | ended {b : Book Account Key Notice Outcome End} {n : Notice} {e : End}
      (hn : (b.notice n).isSome) :
      Posts b (.ended n e) { b with notice := Function.update b.notice n (some (some e)) }

/-- The entries of a book since it was empty, the oldest first. -/
inductive History : List (Entry Account Key Notice Outcome End) →
    Book Account Key Notice Outcome End → Prop
  | nil : History [] empty
  | post {es : List (Entry Account Key Notice Outcome End)}
      {b b' : Book Account Key Notice Outcome End} {e : Entry Account Key Notice Outcome End}
      (h : History es b) (hp : Posts b e b') : History (es ++ [e]) b'

variable {es : List (Entry Account Key Notice Outcome End)}
  {b : Book Account Key Notice Outcome End}

/-- What every entry of a kind needs to be so before and undoes has happened at most once, and no
other entry changes it. -/
theorem History.once {p : Entry Account Key Notice Outcome End → Bool}
    {q : Book Account Key Notice Outcome End → Bool} (h : History es b) (hq : q empty = false)
    (hp : ∀ b e b', Posts b e b' → (p e = true → q b = false ∧ q b' = true) ∧
      (p e = false → q b' = q b)) : es.countP p = (q b).toNat := by
  induction h with
  | nil => simp [hq]
  | @post es b b' e _ hpost ih =>
    obtain ⟨hdo, hskip⟩ := hp b e b' hpost
    rw [List.countP_append, ih, List.countP_singleton]
    cases he : p e with
    | true => simp [hdo he]
    | false => simp [hskip he]

/-- An account is opened once. -/
theorem History.opened_once (h : History es b) (a : Account) :
    es.countP (Entry.opens a) = (b.account a).isSome.toNat := by
  refine h.once (q := fun b => (b.account a).isSome) rfl (fun b e b' hp => ?_)
  cases hp with
  | @opened a' k n ha =>
    by_cases he : a' = a
    · subst he
      simp [Entry.opens, ha]
    · simp [Entry.opens, he, Function.update_of_ne (Ne.symm he)]
  | @settled a' o n ha =>
    by_cases he : a' = a
    · subst he
      simp [Entry.opens, ha]
    · simp [Entry.opens, Function.update_of_ne (Ne.symm he)]
  | ended => simp [Entry.opens]

/-- An account is settled once, if it has an outcome. -/
theorem History.settled_once (h : History es b) (a : Account) :
    es.countP (Entry.settles a) = ((b.account a).bind id).isSome.toNat := by
  refine h.once (q := fun b => ((b.account a).bind id).isSome) rfl (fun b e b' hp => ?_)
  cases hp with
  | @opened a' k n ha =>
    by_cases he : a' = a
    · subst he
      simp [Entry.settles, ha]
    · simp [Entry.settles, Function.update_of_ne (Ne.symm he)]
  | @settled a' o n ha =>
    by_cases he : a' = a
    · subst he
      simp [Entry.settles, ha]
    · simp [Entry.settles, he, Function.update_of_ne (Ne.symm he)]
  | ended => simp [Entry.settles]

/-- A notice is given once. -/
theorem History.told_once (h : History es b) (n : Notice) :
    es.countP (Entry.tells n) = (b.notice n).isSome.toNat := by
  refine h.once (q := fun b => (b.notice n).isSome) rfl (fun b e b' hp => ?_)
  cases hp with
  | @opened a k n' ha hk hn | @settled a o n' ha hn =>
    by_cases he : n' = n
    · subst he
      simp [Entry.tells, hn]
    · simp [Entry.tells, he, Function.update_of_ne (Ne.symm he)]
  | @ended n' e hn =>
    by_cases he : n' = n
    · subst he
      simpa [Entry.tells] using hn
    · simp [Entry.tells, Function.update_of_ne (Ne.symm he)]

end Book

end Payments.Lib
