import Payments.Python.Text

namespace Payments

namespace Url

def isSchemeChar (c : Char) : Bool :=
  c.isAlphanum || c = '+' || c = '-' || c = '.'

/-- `str.partition` and what follows the first separator, which is none when it is missing. -/
def partition (sep : Char) (cs : List Char) : List Char × Option (List Char) :=
  match cs.span (fun c => c ≠ sep) with
  | (before, _ :: rest) => (before, some rest)
  | (before, []) => (before, none)

/-- `str.rpartition(sep)[2]`. -/
def afterLast (sep : Char) (cs : List Char) : List Char :=
  (cs.reverse.takeWhile (fun c => c ≠ sep)).reverse

/-- The scheme in lower case and the text behind its colon. -/
def splitScheme (cs : List Char) : List Char × List Char :=
  match partition ':' cs with
  | (c :: scheme, some rest) =>
    if c.isAlpha ∧ (c :: scheme).all isSchemeChar then ((c :: scheme).map Char.toLower, rest)
    else ([], cs)
  | _ => ([], cs)

/-- The network location behind `//`, up to the path, the query or the fragment. -/
def splitNetloc : List Char → List Char
  | '/' :: '/' :: cs => cs.takeWhile (fun c => c ≠ '/' ∧ c ≠ '?' ∧ c ≠ '#')
  | _ => []

/-- `SplitResult.hostname` of a network location. -/
def hostname (netloc : List Char) : Option (List Char) :=
  let hostinfo := afterLast '@' netloc
  let host := match partition '[' hostinfo with
    | (_, some bracketed) => (partition ']' bracketed).1
    | (_, none) => (partition ':' hostinfo).1
  if host = [] then none
  else match partition '%' host with
    | (name, some zone) => some (name.map Char.toLower ++ '%' :: zone)
    | (name, none) => some (name.map Char.toLower)

/-- The scheme and the host name that `urllib.parse.urlparse` finds. Leading control
characters and blanks are stripped, tabs and line ends removed; an unmatched bracket in
the network location is a `ValueError`. What stands between brackets, and characters whose
normal form contains a separator, are not checked here: `validators.url`, which the caller
asks next, refuses such URLs too. -/
def urlparse (url : String) : Except Exc (String × Option String) :=
  let cs := (url.toList.dropWhile (fun c => c.toNat ≤ 32)).filter
    (fun c => c ≠ '\t' ∧ c ≠ '\r' ∧ c ≠ '\n')
  let (scheme, rest) := splitScheme cs
  let netloc := splitNetloc rest
  if netloc.contains '[' = netloc.contains ']' then
    .ok (String.ofList scheme, (hostname netloc).map String.ofList)
  else .error (.valueError "Invalid IPv6 URL")

end Url

end Payments
