import Mathlib.Data.List.TakeWhile
import Payments.Lib.Address
import Payments.Domain.ValueObjects

namespace Payments

open Lib

namespace Url

/-- A character of a host name that no step of the parsing looks at. -/
structure Plain (c : Char) : Prop where
  kept : c ≠ '\t' ∧ c ≠ '\r' ∧ c ≠ '\n'
  inside : c ≠ '/' ∧ c ≠ '?' ∧ c ≠ '#'
  name : c ≠ '@' ∧ c ≠ '[' ∧ c ≠ ']' ∧ c ≠ ':' ∧ c ≠ '%'
  lower : c.toLower = c

variable {host : List Char}

theorem partition_absent {sep : Char} (h : ∀ c ∈ host, c ≠ sep) :
    partition sep host = (host, none) := by
  have hspan : host.span (fun c => c ≠ sep) = (host, []) := by
    rw [List.span_eq_takeWhile_dropWhile, List.takeWhile_eq_self_iff.mpr (by simpa using h),
      List.dropWhile_eq_nil_iff.mpr (by simpa using h)]
  rw [partition, hspan]

theorem afterLast_absent {sep : Char} (h : ∀ c ∈ host, c ≠ sep) : afterLast sep host = host := by
  have htake : host.reverse.takeWhile (fun c => c ≠ sep) = host.reverse :=
    List.takeWhile_eq_self_iff.mpr (by simpa using h)
  rw [afterLast, htake, List.reverse_reverse]

theorem hostname_plain (hne : host ≠ []) (h : ∀ c ∈ host, Plain c) : hostname host = some host := by
  have hlower : host.map Char.toLower = host :=
    (List.map_congr_left (fun c hc => (h c hc).lower)).trans (List.map_id host)
  simp [hostname, afterLast_absent (fun c hc => (h c hc).name.1),
    partition_absent (fun c hc => (h c hc).name.2.1),
    partition_absent (fun c hc => (h c hc).name.2.2.2.1),
    partition_absent (fun c hc => (h c hc).name.2.2.2.2), hne, hlower]

/-- The URL that a plain host name stands alone in. -/
def ofHost (host : List Char) : String := "http://" ++ String.ofList host

theorem urlparse_ofHost (hne : host ≠ []) (h : ∀ c ∈ host, Plain c) :
    urlparse (ofHost host) = .ok ("http", some (String.ofList host)) := by
  have hfilter : host.filter (fun c => c ≠ '\t' ∧ c ≠ '\r' ∧ c ≠ '\n') = host :=
    List.filter_eq_self.mpr (fun c hc => by simpa using (h c hc).kept)
  have htake : host.takeWhile (fun c => c ≠ '/' ∧ c ≠ '?' ∧ c ≠ '#') = host :=
    List.takeWhile_eq_self_iff.mpr (fun c hc => by simpa using (h c hc).inside)
  have hopen : host.contains '[' = false := by
    simpa using fun hm => (h _ hm).name.2.1 rfl
  have hclose : host.contains ']' = false := by
    simpa using fun hm => (h _ hm).name.2.2.1 rfl
  have hchars : ((ofHost host).toList.dropWhile (fun c => c.toNat ≤ 32)).filter
      (fun c => c ≠ '\t' ∧ c ≠ '\r' ∧ c ≠ '\n') = "http://".toList ++ host := by
    have hlist : (ofHost host).toList = "http://".toList ++ host := by simp [ofHost]
    rw [hlist]
    exact congrArg ("http://".toList ++ ·) hfilter
  have hscheme : splitScheme ("http://".toList ++ host) = ("http".toList, '/' :: '/' :: host) := by
    rfl
  simp only [urlparse, hchars, hscheme, splitNetloc, htake, hopen, hclose, hostname_plain hne h]
  rfl

/-- The texts of IPv4 addresses are plain. -/
theorem plain_dotted {fields : List Nat} {c : Char} (h : c ∈ Address.dotted fields) : Plain c := by
  rcases Address.dotted_mem h with h | rfl
  · have hne : ∀ d : Char, d.isDigit = false → c ≠ d := by
      rintro d hd rfl
      exact absurd (h.symm.trans hd) (by decide)
    refine ⟨⟨hne _ rfl, hne _ rfl, hne _ rfl⟩, ⟨hne _ rfl, hne _ rfl, hne _ rfl⟩,
      ⟨hne _ rfl, hne _ rfl, hne _ rfl, hne _ rfl, hne _ rfl⟩, ?_⟩
    simp only [Char.isDigit] at h
    exact dif_neg (by grind)
  · exact ⟨by decide, by decide, by decide, by decide⟩

end Url

namespace WebhookUrl

variable [Externals] {url : String}

/-- When the URL is accepted, it has a scheme of the web and no local host. -/
def Outside (url : String) : Prop :=
  ∀ w, WebhookUrl.new url = .ok w → ∃ scheme hostname, Url.urlparse url = .ok (scheme, hostname) ∧
    (scheme = "http" ∨ scheme = "https") ∧
    ∀ host, hostname = some host → Address.isLocal host = false

/-- What the constructor accepts. -/
theorem new_ok_iff : (∃ w, WebhookUrl.new url = .ok w) ↔
    ∃ scheme hostname, Url.urlparse url = .ok (scheme, hostname) ∧
      (scheme = "http" ∨ scheme = "https") ∧ hostname ≠ some "localhost" ∧
      hostname ≠ some "127.0.0.1" ∧ Externals.validatorsUrl url = true := by
  unfold WebhookUrl.new
  cases hp : Url.urlparse url with
  | error e => simp [bind, Except.bind]
  | ok p =>
    obtain ⟨scheme, hostname⟩ := p
    simp only [bind, Except.bind, Except.ok.injEq, Prod.mk.injEq]
    constructor
    · rintro ⟨w, hw⟩
      split at hw
      · cases hw
      · split at hw
        · cases hw
        · split at hw
          · rename_i hs hl hv
            exact ⟨_, _, ⟨rfl, rfl⟩, by grind, fun h => hl (.inl h), fun h => hl (.inr h), hv⟩
          · cases hw
    · rintro ⟨_, _, ⟨rfl, rfl⟩, hs, h₁, h₂, hv⟩
      rw [if_neg (by grind), if_neg (by simp [h₁, h₂]), if_pos hv]
      exact ⟨_, rfl⟩

/-- A URL is kept outside exactly when it is none of those that the syntax check passes and
whose host is local under another name than the two that are looked for. -/
theorem outside_iff : Outside url ↔
    ∀ scheme host, Url.urlparse url = .ok (scheme, some host) → (scheme = "http" ∨ scheme = "https") →
      Externals.validatorsUrl url = true → Address.isLocal host = true →
      host = "localhost" ∨ host = "127.0.0.1" := by
  constructor
  · intro h scheme host hp hs hv hlocal
    by_contra hother
    obtain ⟨w, hw⟩ := new_ok_iff.mpr ⟨scheme, some host, hp, hs, by simp_all, by simp_all, hv⟩
    obtain ⟨_, _, hp', _, hfar⟩ := h w hw
    cases hp.symm.trans hp'
    exact absurd (hlocal.symm.trans (hfar host rfl)) (by decide)
  · intro h w hw
    obtain ⟨scheme, hostname, hp, hs, h₁, h₂, hv⟩ := new_ok_iff.mp ⟨w, hw⟩
    refine ⟨scheme, hostname, hp, hs, ?_⟩
    rintro host rfl
    by_contra hlocal
    rcases h scheme host hp hs hv (by simpa using hlocal) with rfl | rfl
    · exact h₁ rfl
    · exact h₂ rfl

/-- The URL of every local IPv4 address but one is accepted when the syntax check passes it. -/
theorem local_accepted {fields : List Nat} (hl : fields.length = 4) (hf : ∀ n ∈ fields, n < 256)
    (hlocal : Address.localV4 fields = true) (hother : fields ≠ [127, 0, 0, 1])
    (hv : Externals.validatorsUrl (Url.ofHost (Address.dotted fields)) = true) :
    (∃ w, WebhookUrl.new (Url.ofHost (Address.dotted fields)) = .ok w) ∧
      ¬ Outside (Url.ofHost (Address.dotted fields)) := by
  have hread := Address.ipv4_dotted hl hf
  have hne : Address.dotted fields ≠ [] := by
    intro hnil
    rw [hnil] at hread
    cases hread
  have hp := Url.urlparse_ofHost hne (fun c hc => Url.plain_dotted hc)
  have hisLocal : Address.isLocal (String.ofList (Address.dotted fields)) = true := by
    simp [Address.isLocal, hread, hlocal]
  -- the two names that are looked for are read as no other address
  have hname : ∀ name, String.ofList (Address.dotted fields) = name →
      Address.ipv4 name.toList = some fields := by
    rintro _ rfl
    rwa [String.toList_ofList]
  have h₁ : String.ofList (Address.dotted fields) ≠ "localhost" := by
    intro h
    cases (show Address.ipv4 "localhost".toList = none by decide).symm.trans (hname _ h)
  have h₂ : String.ofList (Address.dotted fields) ≠ "127.0.0.1" := by
    intro h
    cases (show Address.ipv4 "127.0.0.1".toList = some [127, 0, 0, 1] by decide).symm.trans
      (hname _ h)
    exact hother rfl
  obtain ⟨w, hw⟩ := new_ok_iff.mpr
    ⟨_, _, hp, .inl rfl, fun h => h₁ (Option.some.inj h), fun h => h₂ (Option.some.inj h), hv⟩
  refine ⟨⟨w, hw⟩, fun h => ?_⟩
  obtain ⟨_, _, hp', _, hfar⟩ := h w hw
  cases hp.symm.trans hp'
  exact absurd (hisLocal.symm.trans (hfar _ rfl)) (by decide)

end WebhookUrl

/-- A syntax check that accepts every URL lets an address of a private network pass. -/
theorem private_accepted : ∃ _ : Externals, Externals.validatorsUrl "http://10.0.0.1/hook" = true ∧
    WebhookUrl.new "http://10.0.0.1/hook" = .ok { value := "http://10.0.0.1/hook" } ∧
    Url.urlparse "http://10.0.0.1/hook" = .ok ("http", some "10.0.0.1") ∧
    Address.isLocal "10.0.0.1" = true ∧ ¬ WebhookUrl.Outside "http://10.0.0.1/hook" := by
  let _ : Externals := ⟨fun _ => true, fun _ => "", fun _ => false⟩
  have hp : Url.urlparse "http://10.0.0.1/hook" = .ok ("http", some "10.0.0.1") := by rfl
  have hnew : WebhookUrl.new "http://10.0.0.1/hook" = .ok { value := "http://10.0.0.1/hook" } := by
    rfl
  have hlocal : Address.isLocal "10.0.0.1" = true := by decide
  refine ⟨⟨fun _ => true, fun _ => "", fun _ => false⟩, rfl, hnew, hp, hlocal, fun h => ?_⟩
  obtain ⟨_, _, hp', _, hfar⟩ := h _ hnew
  cases hp.symm.trans hp'
  exact absurd (hlocal.symm.trans (hfar _ rfl)) (by decide)

end Payments
