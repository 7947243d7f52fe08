import Caster.Adapters.Request
import Caster.Library.HttpMessage

/-!
# The message of a request

When the bytes `flx_http_build_request` writes are one request to a reader of HTTP/1.1.  The path
and the host of the URL are written as they are, whatever bytes they have.
-/

namespace Caster.Req

open Driver (Text)
open HttpMessage (Request readRequest isTargetChar isFieldChar trim Writable)

/-! ### The intended request -/

/-- The fields of a request that are there because of its body. -/
def bodyFields (body : Text) : List (Text × Text) :=
  if body = [] then []
  else
    [(contentTypeLabel, contentType), (contentLengthLabel, Nat.toDigits 10 body.length)]

/-- The fields of a request. -/
def requestFields (host body : Text) : List (Text × Text) :=
  (hostLabel, host) :: (userAgentLabel, userAgent) ::
    (bodyFields body ++ [(connectionLabel, connection)])

/-- The request a program asks for. -/
def intended (method : Method) (url : UrlParts) (body : Text) : Request :=
  { method := method.text, target := url.path, fields := requestFields (trim url.host) body, body }

/-- The bytes of a request are the intended one, and nothing is behind it. -/
def IsOneRequest (method : Method) (url : UrlParts) (body : Text) : Prop :=
  ∃ bytes, flxHttpBuildRequest method.text body url = some bytes ∧
    readRequest bytes = some (intended method url body, [])

/-- What stands behind `://` in a URL. -/
def behindScheme (url : Text) : Text :=
  match schemeEnd (cString url) with
  | none => []
  | some (_, behind) => behind

/-- What stands from the first slash behind `://` on. -/
def pathOf (url : Text) : Text := (behindScheme url).dropWhile (· ≠ '/')

/-- What stands between `://` and a slash or a colon. -/
def hostOf (url : Text) : Text := ((behindScheme url).takeWhile (· ≠ '/')).takeWhile (· ≠ ':')

/-- There are visible characters of ASCII only in the path, and no control character but tabs in the
host. -/
def CleanUrl (url : Text) : Prop :=
  (∀ c ∈ pathOf url, isTargetChar c = true) ∧ ∀ c ∈ hostOf url, isFieldChar c = true

/-- The length of a request without its body. -/
def headLength (method : Method) (path host body : Text) : ℕ :=
  method.text.length + path.length + host.length + 61 +
    if body = [] then 0 else 50 + (Nat.toDigits 10 body.length).length

/-- The length of the head is an `int`.  A path that is empty becomes a slash. -/
def HeadFits (method : Method) (url body : Text) : Prop :=
  headLength method (if pathOf url = [] then ['/'] else pathOf url) (hostOf url) body < 2 ^ 31

/-! ### The bytes -/

theorem snprintf_eq {body : Text} (hbody : body.length < 2 ^ 63) :
  snprintf 64 (headLine contentLengthLabel (Nat.toDigits 10 body.length)) =
    headLine contentLengthLabel (Nat.toDigits 10 body.length)
  := by
  have hdigits : (Nat.toDigits 10 body.length).length ≤ 20 := by
    apply Nat.toDigits_length 10 _ _ (by omega)
    omega
  apply List.take_of_length_le
  simp only [headLine, crlf, contentLengthLabel, List.length_append, List.length_cons,
    List.length_nil]
  omega

theorem cString_method (method : Method) : cString method.text = method.text := by
  cases method <;> rfl

/-- The storage has room for the head. -/
theorem flxHttpBuildRequest_eq (method : Method) (url : UrlParts) {body : Text}
    (hbody : body.length < 2 ^ 63) :
  flxHttpBuildRequest method.text body url =
    if 2 ^ 31 ≤ headLength method url.path url.host body then none
    else
      some ((method.text ++ ' ' :: (url.path ++ ' ' :: HttpMessage.version)) ++
        '\r' :: '\n' ::
          (HttpMessage.fieldLines (requestFields url.host body) ++ '\r' :: '\n' :: body))
  := by
  unfold flxHttpBuildRequest
  dsimp only
  rw [cString_method, snprintf_eq hbody]
  apply if_congr
  · unfold headLength
    by_cases hnil : body = []
    · simp only [hnil, headLine, crlf, hostLabel, userAgentLabel, userAgent, connectionLabel,
        connection, List.length_append, List.length_cons, List.length_nil, lt_irrefl, if_false,
        if_true]
      omega
    · have hpos : 0 < body.length := List.length_pos_iff.mpr hnil
      simp only [hnil, hpos, headLine, crlf, hostLabel, userAgentLabel, userAgent,
        contentTypeLabel, contentType, contentLengthLabel, connectionLabel, connection,
        List.length_append, List.length_cons, List.length_nil, if_false, if_true]
      omega
  · rfl
  · by_cases hnil : body = []
    · simp [hnil, requestFields, bodyFields, headLine, HttpMessage.fieldLines, crlf,
        HttpMessage.version]
    · have hpos : 0 < body.length := List.length_pos_iff.mpr hnil
      simp [hnil, hpos, requestFields, bodyFields, headLine, HttpMessage.fieldLines, crlf,
        HttpMessage.version]

/-! ### Reading -/

theorem isTokenChar_method (method : Method) :
  method.text ≠ [] ∧ method.text.all HttpMessage.isTokenChar = true
  := by
  cases method <;> exact ⟨by decide, by decide⟩

theorem writable_of_label {label value : Text} (hlabel : label ≠ [])
    (htoken : label.all HttpMessage.isTokenChar = true)
    (hvalue : value.all isFieldChar = true) :
  Writable (label, value)
  := ⟨hlabel, htoken, List.all_eq_true.mp hvalue⟩

theorem isFieldChar_of_isDigit {c : Char} (h : c.isDigit = true) :
  isFieldChar c = true ∧ HttpMessage.isBlank c = false
  := by
  have hbounds : 48 ≤ c.toNat ∧ c.toNat ≤ 57 := by
    simpa [Char.isDigit, UInt32.le_iff_toNat_le] using h
  constructor
  · simp only [isFieldChar, Bool.or_eq_true, Bool.and_eq_true, decide_eq_true_eq]
    omega
  · have hspace : c ≠ ' ' := by
      rintro rfl
      exact absurd hbounds (by decide)
    have htab : c ≠ '\t' := by
      rintro rfl
      exact absurd hbounds (by decide)
    simp [HttpMessage.isBlank, hspace, htab]

theorem isDigit_length (body : Text) : ∀ c ∈ Nat.toDigits 10 body.length, c.isDigit = true :=
  fun _ hc => Nat.isDigit_of_mem_toDigits (by decide) (by decide) hc

/-- All fields but the host are ones that can be read. -/
theorem writable_fields {host : Text} (hhost : ∀ c ∈ host, isFieldChar c = true) (body : Text) :
  ∀ field ∈ requestFields host body, Writable field
  := by
  have hdigits : (Nat.toDigits 10 body.length).all isFieldChar = true := by
    apply List.all_eq_true.mpr
    intro c hc
    exact (isFieldChar_of_isDigit (isDigit_length body c hc)).1
  have hbody : ∀ field ∈ bodyFields body, Writable field := by
    unfold bodyFields
    split_ifs
    · exact fun field hfield => absurd hfield List.not_mem_nil
    · simp only [List.forall_mem_cons]
      exact ⟨writable_of_label (by decide) (by decide) (by decide),
        writable_of_label (by decide) (by decide) hdigits, fun field hfield => by cases hfield⟩
  unfold requestFields
  rw [List.forall_mem_cons, List.forall_mem_cons, List.forall_mem_append, List.forall_mem_singleton]
  have hlabel : hostLabel ≠ [] ∧ hostLabel.all HttpMessage.isTokenChar = true := by decide
  exact ⟨⟨hlabel.1, hlabel.2, hhost⟩, writable_of_label (by decide) (by decide) (by decide), hbody,
    writable_of_label (by decide) (by decide) (by decide)⟩

/-- What is read of the fields that are written. -/
theorem map_trim_fields (host body : Text) :
  (requestFields host body).map (fun field => (field.1, trim field.2)) =
    requestFields (trim host) body
  := by
  have hdigits : trim (Nat.toDigits 10 body.length) = Nat.toDigits 10 body.length := by
    apply HttpMessage.trim_eq
    intro c hc
    exact (isFieldChar_of_isDigit (isDigit_length body c hc)).2
  have hagent : trim userAgent = userAgent := rfl
  have htype : trim contentType = contentType := rfl
  have hclose : trim connection = connection := rfl
  unfold requestFields bodyFields
  split_ifs
  · simp [hagent, hclose]
  · simp [hagent, hclose, htype, hdigits]

/-- The length of the body is the only one that is given. -/
theorem valuesOf_fields (host body : Text) :
  HttpMessage.valuesOf HttpMessage.transferEncodingName (requestFields host body) = [] ∧
    HttpMessage.valuesOf HttpMessage.contentLengthName (requestFields host body) =
      (if body = [] then [] else [Nat.toDigits 10 body.length]) ∧
    HttpMessage.valuesOf HttpMessage.hostName (requestFields host body) = [host]
  := by
  cases body <;> exact ⟨rfl, rfl, rfl⟩

theorem bodyLength_fields (host body : Text) :
  HttpMessage.bodyLength (requestFields host body) = some body.length
  := by
  obtain ⟨hcoding, hlength, -⟩ := valuesOf_fields host body
  unfold HttpMessage.bodyLength
  rw [hcoding, hlength]
  by_cases hnil : body = []
  · rw [if_pos hnil, hnil]
    rfl
  · have hdigits : Nat.toDigits 10 body.length ≠ [] ∧
        (Nat.toDigits 10 body.length).all Char.isDigit = true :=
      ⟨Nat.toDigits_ne_nil, List.all_eq_true.mpr (isDigit_length body)⟩
    rw [if_neg hnil]
    dsimp only
    rw [if_pos hdigits, Nat.ofDigitChars_ten_toDigits]

/-- A request with a visible target and a host without control characters is read. -/
theorem readRequest_append (method : Method) {url : UrlParts} (body : Text) (hpath : url.path ≠ [])
    (htarget : url.path.all isTargetChar = true) (hhost : ∀ c ∈ url.host, isFieldChar c = true) :
  readRequest ((method.text ++ ' ' :: (url.path ++ ' ' :: HttpMessage.version)) ++
      '\r' :: '\n' ::
        (HttpMessage.fieldLines (requestFields url.host body) ++ '\r' :: '\n' :: body)) =
    some (intended method url body, [])
  := by
  obtain ⟨hmethod, htoken⟩ := isTokenChar_method method
  have hreturn : '\r' ∉ method.text ++ ' ' :: (url.path ++ ' ' :: HttpMessage.version) := by
    have hinMethod := @HttpMessage.not_mem_of_all _ _ htoken '\r' rfl
    have hinPath := @HttpMessage.not_mem_of_all _ _ htarget '\r' rfl
    simp [hinMethod, hinPath, HttpMessage.version]
  have hfuel : (requestFields url.host body).length <
      (HttpMessage.fieldLines (requestFields url.host body) ++
        '\r' :: '\n' :: body).length + 1 := by
    have hle := HttpMessage.length_le_fieldLines (requestFields url.host body)
    rw [List.length_append]
    omega
  have hfields := HttpMessage.readFields_append (writable_fields hhost body) hfuel body
  obtain ⟨-, -, hone⟩ := valuesOf_fields (trim url.host) body
  unfold readRequest
  rw [HttpMessage.readLine_append hreturn]
  simp only [Option.bind_eq_bind, Option.bind_some,
    HttpMessage.readRequestLine_append hmethod htoken hpath htarget, hfields, map_trim_fields,
    bodyLength_fields, hone]
  rw [if_pos ⟨rfl, le_refl _⟩, List.take_length, List.drop_length]
  rfl

/-! ### Clean URLs -/

/-- The path and the host of a URL that is accepted. -/
theorem parts_of_ok {url : Text} {parts : UrlParts} (h : flxParseUrl (cString url) = .ok parts) :
  parts.path = (if pathOf url = [] then ['/'] else pathOf url) ∧ parts.host = hostOf url
  := by
  unfold flxParseUrl at h
  unfold pathOf hostOf behindScheme
  cases hscheme : schemeEnd (cString url) with
  | none =>
    rw [hscheme] at h
    cases h
  | some found =>
    rw [hscheme] at h
    dsimp only at h ⊢
    split_ifs at h with hsupported hhost hpath
    · obtain rfl := Except.ok.inj h
      exact ⟨(if_neg hpath).symm, rfl⟩
    · obtain rfl := Except.ok.inj h
      exact ⟨(if_pos (not_not.mp hpath)).symm, rfl⟩

/-- A URL is clean if its path can be a target and its host the value of a field. -/
theorem cleanUrl_iff {url : Text} {parts : UrlParts} (h : flxParseUrl (cString url) = .ok parts) :
  parts.path ≠ [] ∧
    (CleanUrl url ↔ parts.path.all isTargetChar = true ∧ ∀ c ∈ parts.host, isFieldChar c = true)
  := by
  obtain ⟨hpath, hhost⟩ := parts_of_ok h
  rw [CleanUrl, hpath, hhost, List.all_eq_true]
  split_ifs with hnil
  · rw [hnil]
    refine ⟨List.cons_ne_nil _ _, and_congr_left fun _ => ?_⟩
    apply iff_of_true
    · exact fun c hc => absurd hc List.not_mem_nil
    · rw [List.forall_mem_singleton]
      rfl
  · exact ⟨hnil, Iff.rfl⟩

/-- The bytes of a request are the intended one if and only if the URL is clean and its head fits. -/
theorem isOneRequest_iff (method : Method) {url body : Text} {parts : UrlParts}
    (h : flxParseUrl (cString url) = .ok parts) (hbody : body.length < 2 ^ 63) :
  IsOneRequest method parts body ↔ CleanUrl url ∧ HeadFits method url body
  := by
  obtain ⟨hpath, hclean⟩ := cleanUrl_iff h
  have hfits :
      HeadFits method url body ↔ headLength method parts.path parts.host body < 2 ^ 31 := by
    obtain ⟨hpath, hhost⟩ := parts_of_ok h
    rw [HeadFits, hpath, hhost]
  have hbuild := flxHttpBuildRequest_eq method parts hbody
  rw [hclean, hfits]
  constructor
  · rintro ⟨bytes, hbytes, hread⟩
    obtain ⟨htarget, hfields⟩ := HttpMessage.valid_of_readRequest hread
    have hhost := hfields (hostLabel, trim parts.host) List.mem_cons_self
    refine ⟨⟨htarget, (HttpMessage.all_trim_iff _).mp hhost⟩, ?_⟩
    apply lt_of_not_ge
    intro hlong
    rw [hbytes, if_pos hlong] at hbuild
    cases hbuild
  · rintro ⟨⟨htarget, hhost⟩, hshort⟩
    rw [if_neg (not_le_of_gt hshort)] at hbuild
    exact ⟨_, hbuild, readRequest_append method body hpath htarget hhost⟩

/-- A body is posted to `http://a/b`. -/
theorem isOneRequest_post :
  IsOneRequest .post ⟨['h', 't', 't', 'p'], ['a'], ['8', '0'], ['/', 'b'], false⟩ ['1', '2'] ↔
    CleanUrl ['h', 't', 't', 'p', ':', '/', '/', 'a', '/', 'b'] ∧
      HeadFits .post ['h', 't', 't', 'p', ':', '/', '/', 'a', '/', 'b'] ['1', '2']
  := isOneRequest_iff .post (by decide) (by decide)

/-- The URL `http://a/ HTTP/1.1` with `X: 1` on the next line and `Y:` on the one after it. -/
def injectingUrl : Text :=
  ['h', 't', 't', 'p', ':', '/', '/', 'a', '/', ' ', 'H', 'T', 'T', 'P', '/', '1', '.', '1'] ++
    ['\r', '\n', 'X', ':', ' ', '1', '\r', '\n', 'Y', ':']

/-- The request to such a URL has the field `X`. -/
theorem not_isOneRequest :
  (¬ ∀ (method : Method) (url body : Text) (parts : UrlParts),
    flxParseUrl (cString url) = .ok parts → body.length < 2 ^ 63 → IsOneRequest method parts body) ∧
  ∃ parts bytes request, flxParseUrl (cString injectingUrl) = .ok parts ∧
    flxHttpBuildRequest Method.get.text [] parts = some bytes ∧
    readRequest bytes = some (request, []) ∧ (['X'], ['1']) ∈ request.fields
  := by
  constructor
  · intro h
    obtain ⟨bytes, -, hread⟩ := h .get injectingUrl [] _ rfl (by decide)
    exact absurd (HttpMessage.valid_of_readRequest hread).1 (by decide)
  · exact ⟨_, _, _, rfl, rfl, rfl, by decide⟩

end Caster.Req
