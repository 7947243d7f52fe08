import Caster.Adapters.Request
import Caster.Library.Marks

/-!
# Taking a URL apart

When `flx_parse_url` takes a URL apart as RFC 3986 does.  The authority of the code ends at a slash
only, and the code knows of no fragment.
-/

namespace Caster.Req

open Driver (Text)

/-- The parts of a URL are those of its components. -/
structure SplitsAs (parts : UrlParts) (u : HttpUrl) : Prop where
  https : parts.https = u.isHttps
  host : parts.host = u.host
  port : parts.port = u.portOrDefault
  path : parts.path = u.target

/-- A URL is taken apart as RFC 3986 does. -/
def UrlSplits (u : HttpUrl) : Prop :=
  ∃ parts, flxParseUrl u.text = .ok parts ∧ SplitsAs parts u

/-- The scheme is in lower case, no fragment is there, no query follows an empty path, and no colon
stands without a port behind it. -/
structure PlainUrl (u : HttpUrl) : Prop where
  scheme : u.scheme = HttpUrl.http ∨ u.scheme = HttpUrl.https
  fragment : u.fragment = none
  query : u.path = [] → u.query = none
  port : u.port ≠ some []

/-! ### The scheme -/

theorem schemeEnd_of_not_mem {scheme : Text} (h : ':' ∉ scheme) (behind : Text) :
  schemeEnd (scheme ++ ':' :: '/' :: '/' :: behind) = some (scheme, behind)
  := by
  induction scheme with
  | nil =>
    have hprefix : [':', '/', '/'] <+: ':' :: '/' :: '/' :: behind := ⟨behind, rfl⟩
    rw [List.nil_append, schemeEnd, if_pos hprefix]
    rfl
  | cons c scheme ih =>
    rw [List.mem_cons, not_or] at h
    have hprefix : ¬ [':', '/', '/'] <+: c :: (scheme ++ ':' :: '/' :: '/' :: behind) :=
      fun hprefix => h.1 (List.cons_prefix_cons.mp hprefix).1
    rw [List.cons_append, schemeEnd, if_neg hprefix, ih h.2]
    rfl

/-! ### The parts -/

section

variable (u : HttpUrl)

/-- What the code takes for a part of the authority behind the host and the port. -/
def overrun : Text := u.behindAuthority.takeWhile (· ≠ '/')

/-- The host of the code. -/
def readHost : Text :=
  u.host ++ if u.port = none then (overrun u).takeWhile (· ≠ ':') else []

/-- The port of the code. -/
def readPort : Text :=
  match u.port with
  | some digits => digits ++ overrun u
  | none => portBehind (u.scheme = HttpUrl.https) ((overrun u).dropWhile (· ≠ ':'))

/-- The path of the code. -/
def readPath : Text :=
  if u.behindAuthority.dropWhile (· ≠ '/') ≠ [] then u.behindAuthority.dropWhile (· ≠ '/')
  else ['/']

variable {u}

theorem slash_not_mem_authority : '/' ∉ u.host ++ HttpUrl.marked ':' u.port := by
  rw [List.mem_append, not_or]
  refine ⟨HttpUrl.host_not_mem (Or.inl rfl), ?_⟩
  cases hport : u.port with
  | none => exact List.not_mem_nil
  | some digits =>
    rw [HttpUrl.marked, List.mem_cons, not_or]
    refine ⟨by decide, fun hmem => ?_⟩
    have hdigit := u.port_digits digits hport '/' hmem
    cases hdigit

theorem takeWhile_authority :
  (u.host ++ HttpUrl.marked ':' u.port ++ overrun u).takeWhile (· ≠ ':') = readHost u
  := by
  have hcolon : ':' ∉ u.host := HttpUrl.host_not_mem (Or.inr rfl)
  unfold readHost
  cases hport : u.port with
  | none =>
    rw [HttpUrl.marked, List.append_nil, if_pos rfl]
    exact Marks.takeWhile_append hcolon _
  | some digits =>
    rw [HttpUrl.marked, List.append_assoc, if_neg (by simp)]
    exact Marks.takeWhile_append hcolon _

theorem portBehind_authority :
  portBehind (u.scheme = HttpUrl.https)
    ((u.host ++ HttpUrl.marked ':' u.port ++ overrun u).dropWhile (· ≠ ':')) = readPort u
  := by
  have hcolon : ':' ∉ u.host := HttpUrl.host_not_mem (Or.inr rfl)
  unfold readPort
  cases hport : u.port with
  | none => rw [HttpUrl.marked, List.append_nil, Marks.dropWhile_append hcolon]
  | some digits =>
    rw [HttpUrl.marked, List.append_assoc, Marks.dropWhile_append hcolon]
    rfl

/-- What the code makes of a URL. -/
theorem flxParseUrl_text :
  flxParseUrl u.text =
    if u.scheme = HttpUrl.http ∨ u.scheme = HttpUrl.https then
      .ok { scheme := u.scheme, host := readHost u, port := readPort u, path := readPath u,
            https := u.scheme = HttpUrl.https }
    else .error "REQ supports http and https URLs"
  := by
  have hscheme : schemeEnd u.text =
      some (u.scheme, u.host ++ HttpUrl.marked ':' u.port ++ u.behindAuthority) :=
    schemeEnd_of_not_mem HttpUrl.colon_not_mem_scheme _
  have hauthority : (u.host ++ HttpUrl.marked ':' u.port ++ u.behindAuthority).takeWhile (· ≠ '/') =
      u.host ++ HttpUrl.marked ':' u.port ++ overrun u :=
    Marks.takeWhile_append slash_not_mem_authority _
  have hpath : (u.host ++ HttpUrl.marked ':' u.port ++ u.behindAuthority).dropWhile (· ≠ '/') =
      u.behindAuthority.dropWhile (· ≠ '/') :=
    Marks.dropWhile_append slash_not_mem_authority _
  have hne : ¬ (u.host ++ HttpUrl.marked ':' u.port ++ overrun u).length = 0 := by
    simp [u.host_ne]
  unfold flxParseUrl
  rw [hscheme]
  dsimp only
  rw [hauthority, hpath, takeWhile_authority, if_neg hne]
  by_cases hplain : u.scheme = HttpUrl.http ∨ u.scheme = HttpUrl.https
  · rw [if_pos hplain, if_neg]
    · rw [← portBehind_authority]
      rfl
    · rintro ⟨hhttps, hhttp⟩
      rcases hplain with heq | heq
      · exact hhttp heq
      · exact hhttps (decide_eq_true heq)
  · rw [if_neg hplain, if_pos]
    rw [not_or] at hplain
    exact ⟨fun h => hplain.2 (of_decide_eq_true h), hplain.1⟩

/-! ### Agreement -/

/-- The authority ends where the code takes it to end. -/
def Delimited (u : HttpUrl) : Prop := u.path = [] → u.query = none ∧ u.fragment = none

theorem overrun_eq_nil (h : Delimited u) : overrun u = [] := by
  rcases HttpUrl.behindAuthority_eq (u := u) with ⟨text, hpath⟩ | ⟨hpath, -⟩
  · simp [overrun, HttpUrl.behindAuthority, hpath]
  · obtain ⟨hquery, hfragment⟩ := h hpath
    simp [overrun, HttpUrl.behindAuthority, hpath, hquery, hfragment, HttpUrl.marked]

/-- Otherwise the code reads on over a delimiter. -/
theorem overrun_eq_cons (h : ¬ Delimited u) :
  ∃ c text, overrun u = c :: text ∧ (c = '?' ∨ c = '#')
  := by
  rcases HttpUrl.behindAuthority_eq (u := u) with
    ⟨text, hpath⟩ | ⟨hpath, hnone | ⟨c, text, heq, hc⟩⟩
  · exact absurd (fun hnil => by rw [hpath] at hnil; cases hnil) h
  · exact absurd (fun _ => hnone) h
  · have hslash : c ≠ '/' := by
      rcases hc with rfl | rfl
      · decide
      · decide
    refine ⟨c, text.takeWhile (· ≠ '/'), ?_, hc⟩
    simp [overrun, heq, hslash]

theorem readHost_or_readPort (h : ¬ Delimited u) :
  readHost u ≠ u.host ∨ readPort u ≠ u.portOrDefault
  := by
  obtain ⟨c, text, hoverrun, hc⟩ := overrun_eq_cons h
  have hcolon : c ≠ ':' := by
    rcases hc with rfl | rfl
    · decide
    · decide
  have hdigit : c.isDigit = false := by
    rcases hc with rfl | rfl
    · rfl
    · rfl
  cases hport : u.port with
  | none =>
    left
    simp [readHost, hport, hoverrun, hcolon]
  | some digits =>
    right
    intro heq
    have hmem : c ∈ u.portOrDefault := by
      rw [← heq, readPort, hport, hoverrun]
      exact List.mem_append_right _ List.mem_cons_self
    rw [HttpUrl.isDigit_of_mem_portOrDefault hmem] at hdigit
    cases hdigit

theorem readHost_eq (h : Delimited u) : readHost u = u.host := by
  rw [readHost, overrun_eq_nil h]
  split_ifs <;> simp

theorem isHttps_eq (h : u.scheme = HttpUrl.http ∨ u.scheme = HttpUrl.https) :
  u.isHttps = decide (u.scheme = HttpUrl.https)
  := by
  unfold HttpUrl.isHttps
  rcases h with heq | heq
  · rw [heq]
    decide
  · rw [heq]
    decide

theorem readPort_eq_iff (h : Delimited u)
    (hscheme : u.scheme = HttpUrl.http ∨ u.scheme = HttpUrl.https) :
  readPort u = u.portOrDefault ↔ u.port ≠ some []
  := by
  have hhttps := isHttps_eq hscheme
  unfold readPort HttpUrl.portOrDefault
  rw [overrun_eq_nil h]
  cases hport : u.port with
  | none => simp [hhttps, portBehind]
  | some digits =>
    cases digits with
    | nil =>
      dsimp only
      split_ifs <;> simp
    | cons d digits => simp

theorem readPath_eq_iff (h : Delimited u) : readPath u = u.target ↔ u.fragment = none := by
  have hmarked : HttpUrl.marked '#' u.fragment = [] ↔ u.fragment = none := by
    cases u.fragment <;> simp [HttpUrl.marked]
  unfold readPath HttpUrl.target
  rcases HttpUrl.behindAuthority_eq (u := u) with ⟨text, hpath⟩ | ⟨hpath, -⟩
  · have hdrop : u.behindAuthority.dropWhile (· ≠ '/') = u.behindAuthority := by
      simp [HttpUrl.behindAuthority, hpath]
    have hne : u.behindAuthority ≠ [] := by simp [HttpUrl.behindAuthority, hpath]
    rw [hdrop, if_pos hne, if_neg (by simp [hpath]), HttpUrl.behindAuthority, ← hmarked]
    simp
  · obtain ⟨hquery, hfragment⟩ := h hpath
    apply iff_of_true _ hfragment
    simp [HttpUrl.behindAuthority, hpath, hquery, hfragment, HttpUrl.marked]

end

/-- `flx_parse_url` takes a URL apart as RFC 3986 does if and only if the URL is a plain one. -/
theorem urlSplits_iff (u : HttpUrl) : UrlSplits u ↔ PlainUrl u := by
  unfold UrlSplits
  rw [flxParseUrl_text]
  by_cases hscheme : u.scheme = HttpUrl.http ∨ u.scheme = HttpUrl.https
  · rw [if_pos hscheme]
    by_cases hdelimited : Delimited u
    · constructor
      · rintro ⟨parts, hparts, hsplits⟩
        obtain rfl := Except.ok.inj hparts
        have hfragment := (readPath_eq_iff hdelimited).mp hsplits.path
        have hport := (readPort_eq_iff hdelimited hscheme).mp hsplits.port
        exact ⟨hscheme, hfragment, fun hpath => (hdelimited hpath).1, hport⟩
      · intro hplain
        refine ⟨_, rfl, (isHttps_eq hscheme).symm, readHost_eq hdelimited, ?_, ?_⟩
        · exact (readPort_eq_iff hdelimited hscheme).mpr hplain.port
        · exact (readPath_eq_iff hdelimited).mpr hplain.fragment
    · apply iff_of_false
      · rintro ⟨parts, hparts, hsplits⟩
        obtain rfl := Except.ok.inj hparts
        rcases readHost_or_readPort hdelimited with hhost | hport
        · exact hhost hsplits.host
        · exact hport hsplits.port
      · intro hplain
        exact hdelimited fun hpath => ⟨hplain.query hpath, hplain.fragment⟩
  · rw [if_neg hscheme]
    apply iff_of_false
    · rintro ⟨parts, hparts, -⟩
      cases hparts
    · exact fun hplain => hscheme hplain.scheme

/-- The query of `http://a?b` is read as a part of the host. -/
theorem not_urlSplits : ¬ ∀ u : HttpUrl, UrlSplits u := by
  intro h
  have hsplits := h
    { scheme := HttpUrl.http, host := ['a'], port := none, path := [], query := some ['b'],
      fragment := none, scheme_eq := by decide, host_ne := by decide, host_regName := by decide,
      port_digits := by simp, path_abempty := by simp, path_chars := by decide,
      query_chars := by simp; decide, fragment_chars := by simp }
  obtain ⟨parts, hparts, hsplits⟩ := hsplits
  obtain rfl := Except.ok.inj hparts
  exact absurd hsplits.host (by decide)

end Caster.Req
