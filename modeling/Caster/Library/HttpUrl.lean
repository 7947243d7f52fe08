import Mathlib.Data.List.Basic
import Mathlib.Tactic

/-!
# URLs of HTTP

The URLs of the schemes `http` and `https` by the grammar of RFC 3986, without user information and
with a registered name as the host.  An IPv4 address has the form of a registered name.
-/

/-! ### Characters -/

namespace HttpUrl

def isUnreserved (c : Char) : Bool := c.isAlphanum || ['-', '.', '_', '~'].contains c

/-- The apostrophe has the code 39. -/
def isSubDelim (c : Char) : Bool :=
  ['!', '$', '&', Char.ofNat 39, '(', ')', '*', '+', ',', ';', '='].contains c

def isPchar (c : Char) : Bool := isUnreserved c || isSubDelim c || c = ':' || c = '@'

def isHexDigit (c : Char) : Bool :=
  c.isDigit || 'a' ≤ c && c ≤ 'f' || 'A' ≤ c && c ≤ 'F'

/-- Two digits stand behind every percent sign. -/
def pctEncoded : List Char → Bool
  | [] => true
  | c :: text =>
    if c = '%' then
      match text with
      | a :: b :: text => isHexDigit a && isHexDigit b && pctEncoded text
      | _ => false
    else pctEncoded text

/-- A text of some characters and of percent encodings. -/
def OfChars (p : Char → Bool) (text : List Char) : Prop :=
  (text.all fun c => p c || c = '%') = true ∧ pctEncoded text = true

instance (p : Char → Bool) (text : List Char) : Decidable (OfChars p text) :=
  inferInstanceAs (Decidable (_ ∧ _))

def http : List Char := ['h', 't', 't', 'p']

def https : List Char := ['h', 't', 't', 'p', 's']

end HttpUrl

/-- The components of a URL. -/
structure HttpUrl where
  scheme : List Char
  host : List Char
  port : Option (List Char)
  path : List Char
  query : Option (List Char)
  fragment : Option (List Char)
  scheme_eq : scheme.map Char.toLower = HttpUrl.http ∨ scheme.map Char.toLower = HttpUrl.https
  host_ne : host ≠ []
  host_regName : HttpUrl.OfChars (fun c => HttpUrl.isUnreserved c || HttpUrl.isSubDelim c) host
  port_digits : ∀ digits ∈ port, ∀ c ∈ digits, c.isDigit = true
  path_abempty : path = [] ∨ path.head? = some '/'
  path_chars : HttpUrl.OfChars (fun c => HttpUrl.isPchar c || c = '/') path
  query_chars : ∀ text ∈ query,
    HttpUrl.OfChars (fun c => HttpUrl.isPchar c || c = '/' || c = '?') text
  fragment_chars : ∀ text ∈ fragment,
    HttpUrl.OfChars (fun c => HttpUrl.isPchar c || c = '/' || c = '?') text

namespace HttpUrl

/-- A component with the character in front of it, if it is there. -/
def marked (mark : Char) : Option (List Char) → List Char
  | none => []
  | some text => mark :: text

variable (u : HttpUrl)

/-- What stands behind the host. -/
def behindAuthority : List Char := u.path ++ marked '?' u.query ++ marked '#' u.fragment

/-- The text of a URL. -/
def text : List Char :=
  u.scheme ++ ':' :: '/' :: '/' :: (u.host ++ marked ':' u.port ++ u.behindAuthority)

/-- The URL is one of HTTP over TLS. -/
def isHttps : Bool := u.scheme.map Char.toLower = https

/-- The port of the server: a port that is empty or not given is that of the scheme. -/
def portOrDefault : List Char :=
  match u.port with
  | some (d :: digits) => d :: digits
  | _ => if u.isHttps then ['4', '4', '3'] else ['8', '0']

/-- The target of a request: the path and the query. -/
def target : List Char := (if u.path = [] then ['/'] else u.path) ++ marked '?' u.query

variable {u}

/-! ### Delimiters -/

theorem not_mem_of_ofChars {p : Char → Bool} {text : List Char} (h : OfChars p text) {c : Char}
    (hc : p c = false) (hpercent : c ≠ '%') :
  c ∉ text
  := by
  intro hmem
  have hchar := List.all_eq_true.mp h.1 c hmem
  simp only [hc, Bool.false_or, decide_eq_true_eq] at hchar
  exact hpercent hchar

/-- No delimiter of the authority is in the host. -/
theorem host_not_mem {c : Char} (hc : c = '/' ∨ c = ':') : c ∉ u.host := by
  rcases hc with rfl | rfl
  · exact not_mem_of_ofChars u.host_regName rfl (by decide)
  · exact not_mem_of_ofChars u.host_regName rfl (by decide)

theorem colon_not_mem_scheme : ':' ∉ u.scheme := by
  intro hmem
  have hlower : ':' ∈ u.scheme.map Char.toLower := List.mem_map.mpr ⟨':', hmem, by decide⟩
  rcases u.scheme_eq with heq | heq
  · rw [heq] at hlower
    exact absurd hlower (by decide)
  · rw [heq] at hlower
    exact absurd hlower (by decide)

theorem isDigit_of_mem_portOrDefault {c : Char} (hc : c ∈ u.portOrDefault) : c.isDigit = true := by
  unfold portOrDefault at hc
  split at hc
  · rename_i d digits hport
    exact u.port_digits _ hport c hc
  · split_ifs at hc
    · have hdigits : ['4', '4', '3'].all Char.isDigit = true := rfl
      exact List.all_eq_true.mp hdigits c hc
    · have hdigits : ['8', '0'].all Char.isDigit = true := rfl
      exact List.all_eq_true.mp hdigits c hc

/-- What stands behind the host is nothing, or starts with a delimiter. -/
theorem behindAuthority_eq :
  (∃ text, u.path = '/' :: text) ∨
    u.path = [] ∧ (u.query = none ∧ u.fragment = none ∨
      ∃ c text, u.behindAuthority = c :: text ∧ (c = '?' ∨ c = '#'))
  := by
  cases hpath : u.path with
  | nil =>
    right
    refine ⟨rfl, ?_⟩
    unfold behindAuthority
    rw [hpath]
    cases hquery : u.query with
    | none =>
      cases hfragment : u.fragment with
      | none => exact Or.inl ⟨rfl, rfl⟩
      | some text => exact Or.inr ⟨'#', text, rfl, Or.inr rfl⟩
    | some query => exact Or.inr ⟨'?', query ++ marked '#' u.fragment, rfl, Or.inl rfl⟩
  | cons c text =>
    left
    have hhead := u.path_abempty.resolve_left (by simp [hpath])
    rw [hpath, List.head?_cons] at hhead
    exact ⟨text, by rw [Option.some.inj hhead]⟩

end HttpUrl
