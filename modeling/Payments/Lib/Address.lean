import Mathlib.Data.List.Basic
import Payments.Lib.Numeral

namespace Payments.Lib.Address

/-- A decimal field of an IPv4 literal. A leading zero would be ambiguous. -/
def octet (cs : List Char) : Option Nat :=
  if cs = [] ∨ 3 < cs.length ∨ (cs.length ≠ 1 ∧ cs.head? = some '0') then none
  else (readDigits 10 0 cs).filter (fun n => n ≤ 255)

/-- The four fields of an IPv4 literal in dotted decimal notation. -/
def ipv4 (cs : List Char) : Option (List Nat) :=
  let fields := cs.splitOn '.'
  if fields.length = 4 then fields.mapM octet else none

/-- A group of an IPv6 literal. -/
def group (cs : List Char) : Option Nat :=
  if cs = [] ∨ 4 < cs.length then none else readDigits 16 0 cs

/-- The groups of an IPv6 literal behind its `::`, or of one without it. The last two may be
written as an IPv4 literal. -/
def groups (parts : List (List Char)) : Option (List Nat) :=
  match parts.getLast?.bind ipv4 with
  | some [a, b, c, d] =>
    (parts.dropLast.mapM group).map (fun gs => gs ++ [256 * a + b, 256 * c + d])
  | _ => parts.mapM group

/-- What stands before the first `::` and behind it. -/
def splitDouble : List Char → Option (List Char × List Char)
  | ':' :: ':' :: cs => some ([], cs)
  | c :: cs => (splitDouble cs).map (fun (l, r) => (c :: l, r))
  | [] => none

def colonParts (cs : List Char) : List (List Char) :=
  if cs = [] then [] else cs.splitOn ':'

/-- The eight groups of an IPv6 literal, without its zone. A `::` stands for one zero group
or more. -/
def ipv6 (cs : List Char) : Option (List Nat) :=
  match splitDouble cs with
  | none => (groups (colonParts cs)).filter (fun gs => gs.length = 8)
  | some (l, r) =>
    match (colonParts l).mapM group, groups (colonParts r) with
    | some ls, some rs =>
      if ls.length + rs.length < 8 then
        some (ls ++ (List.replicate (8 - (ls.length + rs.length)) 0 ++ rs))
      else none
    | _, _ => none

/-- The blocks 127.0.0.0/8, 10.0.0.0/8, 172.16.0.0/12, 192.168.0.0/16 and 169.254.0.0/16. -/
def localV4 : List Nat → Bool
  | a :: b :: _ => a = 127 || a = 10 || (a = 172 && 16 ≤ b && b < 32) || (a = 192 && b = 168) ||
      (a = 169 && b = 254)
  | _ => false

/-- The loopback address `::1` and the block fe80::/10. -/
def localV6 (gs : List Nat) : Bool :=
  gs = [0, 0, 0, 0, 0, 0, 0, 1] || gs.head?.any (fun g => g / 2 ^ 6 = 0xfe80 / 2 ^ 6)

/-- The name of the machine itself, in any case, with or without the dot of the root. -/
def isLocalhost (cs : List Char) : Bool :=
  cs.map Char.toLower = "localhost".toList || cs.map Char.toLower = "localhost.".toList

/-- The host of a URL names the machine itself or one in the networks behind it. -/
def isLocal (host : String) : Bool :=
  let cs := host.toList
  isLocalhost cs || (ipv4 cs).any localV4 ||
    (ipv6 (cs.takeWhile (fun c => c ≠ '%'))).any localV6

/-- The text of an IPv4 address. -/
def dotted (fields : List Nat) : List Char := ['.'].intercalate (fields.map (Nat.toDigits 10))

theorem octet_digits {n : Nat} (h : n < 256) : octet (Nat.toDigits 10 n) = some n := by
  have hall : ∀ m ∈ List.range 256, octet (Nat.toDigits 10 m) = some m := by decide +kernel
  exact hall n (List.mem_range.mpr h)

theorem digits_mem {n : Nat} {c : Char} (h : c ∈ Nat.toDigits 10 n) : c.isDigit = true :=
  Nat.isDigit_of_mem_toDigits (by decide) (by decide) h

theorem octets_digits {fields : List Nat} (h : ∀ n ∈ fields, n < 256) :
    (fields.map (Nat.toDigits 10)).mapM octet = some fields := by
  induction fields with
  | nil => rfl
  | cons n fields ih =>
    have hn := octet_digits (h n List.mem_cons_self)
    have hrest := ih (fun m hm => h m (List.mem_cons_of_mem _ hm))
    simp [hn, hrest]

/-- Reading the text of an address gives the address. -/
theorem ipv4_dotted {fields : List Nat} (hl : fields.length = 4) (h : ∀ n ∈ fields, n < 256) :
    ipv4 (dotted fields) = some fields := by
  have hsplit : (dotted fields).splitOn '.' = fields.map (Nat.toDigits 10) := by
    apply List.splitOn_intercalate
    · intro cs hcs hdot
      obtain ⟨n, _, rfl⟩ := List.mem_map.mp hcs
      exact absurd (digits_mem hdot) (by decide)
    · intro hnil
      rw [List.map_eq_nil_iff.mp hnil] at hl
      cases hl
  simp only [ipv4, hsplit, List.length_map, hl, if_true, octets_digits h]

/-- The characters of the text of an address are digits and dots. -/
theorem dotted_mem {fields : List Nat} {c : Char} (h : c ∈ dotted fields) :
    c.isDigit = true ∨ c = '.' := by
  induction fields with
  | nil => cases h
  | cons n fields ih =>
    cases fields with
    | nil => exact .inl (digits_mem (by simpa [dotted] using h))
    | cons m fields =>
      have hcons : dotted (n :: m :: fields) =
          Nat.toDigits 10 n ++ '.' :: dotted (m :: fields) := rfl
      rw [hcons, List.mem_append, List.mem_cons] at h
      rcases h with h | h | h
      · exact .inl (digits_mem h)
      · exact .inr h
      · exact ih h

end Payments.Lib.Address
