import Caster.Adapters.Request
import Caster.Library.HttpResponse

/-!
# Responses to requests

What the worker of a request makes of the bytes it reads.  The first head of a stream ends the search
for the body, and what is behind it is the body as it is.
-/

namespace Caster.Req

open Driver (Text)
open HttpMessage

/-! ### Reading -/

/-- What a read of the socket yields; one that yields no bytes is the end of the stream. -/
inductive Read where
  | bytes (data : Text)
  | failed

/-- The fields of a task that a response sets. -/
structure HttpResponse where
  status : Int32 := 0
  body : Text := []
  error : Text := []

/-- What the program gets of a response. -/
structure HttpRes where
  status : Int32
  body : Text
deriving DecidableEq

/-- The first error is kept, as far as it fits an array of 256 bytes. -/
def flxHttpTaskSetError (http : HttpResponse) (message : Text) : HttpResponse :=
  if http.error ≠ [] then http else { http with error := snprintf 256 message }

/-- Storage for the body is there. -/
def flxHttpTaskAppendBody (http : HttpResponse) (data : Text) : HttpResponse :=
  { http with body := http.body ++ data }

def flxHttpTaskFinish (http : HttpResponse) : HttpRes where
  status := if http.error ≠ [] then 0 else http.status
  body := if http.error ≠ [] then http.error else http.body

/-- The whitespace that `sscanf` skips. -/
def isSpace (c : Char) : Bool := c = ' ' || 9 ≤ c.toNat && c.toNat ≤ 13

/-- The sign of a number, and what is behind it. -/
def scanSign : Text → Bool × Text
  | '-' :: text => (true, text)
  | '+' :: text => (false, text)
  | text => (false, text)

/-- A conversion `%d`: the number, and what is behind it. -/
def scanInt (text : Text) : Option (ℤ × Text) :=
  let (negative, text) := scanSign (text.dropWhile isSpace)
  let digits := text.takeWhile Char.isDigit
  if digits = [] then none
  else
    let n : ℤ := Nat.ofDigitChars 10 digits 0
    some (if negative then -n else n, text.dropWhile Char.isDigit)

/-- A text behind another one. -/
def scanLiteral (literal text : Text) : Option Text :=
  if literal <+: text then some (text.drop literal.length) else none

/-- The `int` of a number, which is a `long` first. -/
def toInt (n : ℤ) : Int32 := Int32.ofInt (max (-2 ^ 63) (min n (2 ^ 63 - 1)))

/-- The status that `sscanf` finds with `HTTP/%*d.%*d %d`. -/
def scanStatus (response : Text) : Option Int32 := do
  let text ← scanLiteral ['H', 'T', 'T', 'P', '/'] response
  let (_, text) ← scanInt text
  let text ← scanLiteral ['.'] text
  let (_, text) ← scanInt text
  let (status, _) ← scanInt (text.dropWhile isSpace)
  some (toInt status)

def invalidResponse : Text := "invalid HTTP response".toList

def invalidStatus : Text := "invalid HTTP status".toList

def readFailed : Text := "response read failed".toList

def flxHttpParseResponse (http : HttpResponse) (response : Text) : HttpResponse :=
  match behindBlank response with
  | none => flxHttpTaskSetError http invalidResponse
  | some body =>
    match scanStatus (cString response) with
    | none => flxHttpTaskSetError http invalidStatus
    | some status => flxHttpTaskAppendBody { http with status } body

/-- The loop that reads a response, behind the bytes that were read before. -/
def readResponse (http : HttpResponse) (response : Text) : List Read → HttpResponse
  | [] => flxHttpParseResponse http response
  | .failed :: _ => flxHttpTaskSetError http readFailed
  | .bytes data :: reads =>
    if data.length = 0 then flxHttpParseResponse http response
    else readResponse http (response ++ data) reads

/-- The result of a task whose request was written. -/
def flxHttpResult (reads : List Read) : HttpRes := flxHttpTaskFinish (readResponse {} [] reads)

/-- The reads of a stream, of which none is larger than the buffer. -/
structure Partition (reads : List Text) (stream : Text) : Prop where
  flatten : reads.flatten = stream
  sizes : ∀ read ∈ reads, read ≠ [] ∧ read.length ≤ 8192

/-- The result of an exchange is the final response, however the stream is read; and an error if the
stream ends, or a read fails, before the heads are complete. -/
structure Decodes (e : Exchange) : Prop where
  whole : ∀ reads, Partition reads e.text →
    flxHttpResult (reads.map Read.bytes) = ⟨Int32.ofNat e.final.status, e.framing.body⟩
  ended : ∀ part more, part ++ more = e.headsText → more ≠ [] → ∀ reads, Partition reads part →
    flxHttpResult (reads.map Read.bytes) = ⟨0, invalidResponse⟩
  failed : ∀ part more, part ++ more = e.headsText → more ≠ [] → ∀ reads, Partition reads part →
    flxHttpResult (reads.map Read.bytes ++ [.failed]) = ⟨0, readFailed⟩

/-! ### Streams -/

theorem readResponse_bytes (http : HttpResponse) (response : Text) {reads : List Text}
    (h : ∀ read ∈ reads, read ≠ []) (rest : List Read) :
  readResponse http response (reads.map Read.bytes ++ rest) =
    readResponse http (response ++ reads.flatten) rest
  := by
  induction reads generalizing response with
  | nil => simp
  | cons read reads ih =>
    obtain ⟨hread, hreads⟩ := List.forall_mem_cons.mp h
    rw [List.map_cons, List.cons_append, readResponse,
      if_neg fun hlength => hread (List.length_eq_zero_iff.mp hlength), ih _ hreads,
      List.flatten_cons, List.append_assoc]

/-- However a stream is read, the whole of it is parsed. -/
theorem Partition.result {reads : List Text} {stream : Text} (h : Partition reads stream) :
  flxHttpResult (reads.map Read.bytes) = flxHttpTaskFinish (flxHttpParseResponse {} stream) ∧
    flxHttpResult (reads.map Read.bytes ++ [.failed]) = ⟨0, readFailed⟩
  := by
  have hne : ∀ read ∈ reads, read ≠ [] := fun read hread => (h.sizes read hread).1
  constructor
  · have hread := readResponse_bytes {} [] hne []
    rw [List.append_nil, List.nil_append, h.flatten] at hread
    rw [flxHttpResult, hread]
    rfl
  · rw [flxHttpResult, readResponse_bytes {} [] hne]
    rfl

theorem exists_partition (stream : Text) : ∃ reads, Partition reads stream := by
  refine ⟨stream.map fun c => [c], by simp [List.flatten_eq_flatMap, List.flatMap_map], ?_⟩
  rw [List.forall_mem_map]
  exact fun c _ => ⟨List.cons_ne_nil _ _, by simp⟩

/-- A stream without an empty line has no head. -/
theorem result_of_behindBlank {stream : Text} (h : behindBlank stream = none) :
  flxHttpTaskFinish (flxHttpParseResponse {} stream) = ⟨0, invalidResponse⟩
  := by
  rw [flxHttpParseResponse, h]
  rfl

/-! ### Status lines -/

theorem exists_toDigits_cons (n : ℕ) :
  ∃ d digits, Nat.toDigits 10 n = d :: digits ∧ d.isDigit = true
  := by
  obtain ⟨d, digits, hdigits⟩ := List.exists_cons_of_ne_nil (@Nat.toDigits_ne_nil n 10)
  have hmem : d ∈ Nat.toDigits 10 n := by
    rw [hdigits]
    exact List.mem_cons_self
  exact ⟨d, digits, hdigits, Nat.isDigit_of_mem_toDigits (by decide) (by decide) hmem⟩

theorem isSpace_of_isDigit {c : Char} (h : c.isDigit = true) : isSpace c = false := by
  have hbounds : 48 ≤ c.toNat ∧ c.toNat ≤ 57 := by
    simp only [Char.isDigit, Bool.and_eq_true, decide_eq_true_eq, ge_iff_le] at h
    exact h
  have hblank : c ≠ ' ' := by
    rintro rfl
    exact absurd h (by decide)
  simp [isSpace, hblank]
  omega

theorem dropWhile_isSpace_digits (n : ℕ) (rest : Text) :
  (Nat.toDigits 10 n ++ rest).dropWhile isSpace = Nat.toDigits 10 n ++ rest
  := by
  obtain ⟨d, digits, hdigits, hd⟩ := exists_toDigits_cons n
  rw [hdigits, List.cons_append, List.dropWhile_cons_of_neg (by simp [isSpace_of_isDigit hd])]

theorem scanInt_digits (n : ℕ) {c : Char} (h : c.isDigit = false) (rest : Text) :
  scanInt (Nat.toDigits 10 n ++ c :: rest) = some ((n : ℤ), c :: rest)
  := by
  have hall : ∀ d ∈ Nat.toDigits 10 n, d.isDigit = true :=
    fun d hd => Nat.isDigit_of_mem_toDigits (by decide) (by decide) hd
  have hsign : scanSign (Nat.toDigits 10 n ++ c :: rest) = (false, Nat.toDigits 10 n ++ c :: rest) := by
    obtain ⟨d, digits, hdigits, hd⟩ := exists_toDigits_cons n
    rw [hdigits, List.cons_append, scanSign]
    · rintro text ⟨⟩
      cases hd
    · rintro text ⟨⟩
      cases hd
  have hdigits : (Nat.toDigits 10 n ++ c :: rest).takeWhile Char.isDigit = Nat.toDigits 10 n := by
    rw [List.takeWhile_append_of_pos hall, List.takeWhile_cons_of_neg (by simp [h]), List.append_nil]
  have hbehind : (Nat.toDigits 10 n ++ c :: rest).dropWhile Char.isDigit = c :: rest := by
    rw [List.dropWhile_append_of_pos hall, List.dropWhile_cons_of_neg (by simp [h])]
  rw [scanInt, dropWhile_isSpace_digits, hsign]
  dsimp only
  rw [hdigits, hbehind, if_neg Nat.toDigits_ne_nil, Nat.ofDigitChars_ten_toDigits]
  rfl

/-- The status of the first head is found. -/
theorem scanStatus_head (head : Head) (rest : Text) :
  scanStatus (cString (head.text ++ rest)) = some (Int32.ofNat head.status)
  := by
  have hone : Nat.toDigits 10 1 = ['1'] := rfl
  obtain ⟨more, htext⟩ : ∃ more, head.text ++ rest =
      (['H', 'T', 'T', 'P', '/', '1', '.', '1', ' '] ++ Nat.toDigits 10 head.status ++ [' ']) ++ more := by
    refine ⟨head.reason ++ '\r' :: '\n' ::
      (linesText (head.fields.map fun field => field.1 ++ ':' :: field.2) ++ '\r' :: '\n' :: rest), ?_⟩
    simp [Head.text, Head.lines, Head.statusLine, linesText, version]
  have hdigits : ∀ c ∈ Nat.toDigits 10 head.status, c ≠ '\x00' := by
    rintro c hc rfl
    exact absurd (Nat.isDigit_of_mem_toDigits (by decide) (by decide) hc) (by decide)
  have hstring : cString (head.text ++ rest) = ['H', 'T', 'T', 'P', '/'] ++ (Nat.toDigits 10 1 ++
      '.' :: (Nat.toDigits 10 1 ++ ' ' :: (Nat.toDigits 10 head.status ++ ' ' :: cString more))) := by
    have hchars : ∀ c ∈ ['H', 'T', 'T', 'P', '/', '1', '.', '1', ' '] ++
        Nat.toDigits 10 head.status ++ [' '], (decide (c ≠ '\x00')) = true := by
      intro c hc
      simp only [List.mem_append, List.mem_cons, List.not_mem_nil, or_false] at hc
      rcases hc with (hc | hc) | rfl
      · rcases hc with rfl | rfl | rfl | rfl | rfl | rfl | rfl | rfl | rfl <;> rfl
      · simpa using hdigits c hc
      · rfl
    rw [htext, cString, List.takeWhile_append_of_pos hchars, hone]
    simp [cString]
  have hfirst := scanInt_digits 1 (c := '.') rfl
    (Nat.toDigits 10 1 ++ ' ' :: (Nat.toDigits 10 head.status ++ ' ' :: cString more))
  have hsecond := scanInt_digits 1 (c := ' ') rfl (Nat.toDigits 10 head.status ++ ' ' :: cString more)
  have hstatus := scanInt_digits head.status (c := ' ') rfl (cString more)
  have hblank : (' ' :: (Nat.toDigits 10 head.status ++ ' ' :: cString more)).dropWhile isSpace =
      Nat.toDigits 10 head.status ++ ' ' :: cString more := by
    rw [List.dropWhile_cons_of_pos rfl, dropWhile_isSpace_digits]
  have hliteral (literal text : Text) : scanLiteral literal (literal ++ text) = some text := by
    simp [scanLiteral]
  have hdot (text : Text) : scanLiteral ['.'] ('.' :: text) = some text := hliteral ['.'] text
  have hint : toInt head.status = Int32.ofNat head.status := by
    obtain ⟨-, hstatus⟩ := head.three_digits
    have hlong : max (-2 ^ 63) (min (head.status : ℤ) (2 ^ 63 - 1)) = head.status := by omega
    rw [toInt, hlong, Int32.ofInt_eq_ofNat]
  rw [hstring, scanStatus, hliteral]
  simp [hfirst, hdot, hsecond, hblank, hstatus, hint]

/-! ### Exchanges -/

/-- Whatever is behind the first head is the body. -/
theorem result_of_head (head : Head) (rest : Text) :
  flxHttpTaskFinish (flxHttpParseResponse {} (head.text ++ rest)) = ⟨Int32.ofNat head.status, rest⟩
  := by
  rw [flxHttpParseResponse, head.behindBlank_text]
  dsimp only
  rw [scanStatus_head]
  rfl

/-- The status of an interim response is not that of a final one. -/
theorem ofNat_ne {n m : ℕ} (hn : n < 200) (hm : 200 ≤ m) (hm' : m ≤ 999) : Int32.ofNat n ≠ Int32.ofNat m := by
  intro heq
  have hint := congrArg Int32.toInt heq
  rw [Int32.toInt_ofNat_of_lt (by omega), Int32.toInt_ofNat_of_lt (by omega)] at hint
  omega

theorem decodes_iff (e : Exchange) :
  Decodes e ↔ e.interims = [] ∧ ¬ e.framing.IsChunked
  := by
  constructor
  · intro h
    obtain ⟨reads, hreads⟩ := exists_partition e.text
    have hwhole := h.whole reads hreads
    rw [hreads.result.1] at hwhole
    obtain ⟨hstatus, -⟩ := e.final.three_digits
    cases hinterims : e.interims with
    | nil =>
      refine ⟨rfl, fun hchunked => ?_⟩
      have htext : e.text = e.final.text ++ e.framing.text := by
        rw [Exchange.text, Exchange.headsText, hinterims]
        rfl
      rw [htext, result_of_head] at hwhole
      have hbody : e.framing.text = e.framing.body := (HttpRes.mk.inj hwhole).2
      have hlonger := e.framing.length_body_lt hchunked
      rw [hbody] at hlonger
      exact absurd hlonger (lt_irrefl _)
    | cons interim interims =>
      have htext : e.text = interim.text ++ (interims.flatMap Head.text ++ e.final.text ++ e.framing.text) := by
        rw [Exchange.text, Exchange.headsText, hinterims]
        simp
      have hsmall : interim.status < 200 := by
        apply e.interim
        rw [hinterims]
        exact List.mem_cons_self
      rw [htext, result_of_head] at hwhole
      exact absurd (HttpRes.mk.inj hwhole).1 (ofNat_ne hsmall e.isFinal e.final.three_digits.2)
  · rintro ⟨hinterims, hchunked⟩
    have hheads : e.headsText = e.final.text := by
      rw [Exchange.headsText, hinterims]
      rfl
    refine ⟨fun reads hreads => ?_, fun part more htext hmore reads hreads => ?_,
      fun part more htext hmore reads hreads => hreads.result.2⟩
    · rw [hreads.result.1, Exchange.text, hheads, result_of_head, Framing.text_eq hchunked]
    · rw [hheads] at htext
      rw [hreads.result.1]
      exact result_of_behindBlank (e.final.behindBlank_part htext hmore)

/-- A stream without a head is an error, and an exchange is decoded if and only if it has no interim
response and no chunked body. -/
theorem flxHttpResult_decodes (e : Exchange) :
  (∀ stream, behindBlank stream = none → ∀ reads, Partition reads stream →
      flxHttpResult (reads.map Read.bytes) = ⟨0, invalidResponse⟩) ∧
    (Decodes e ↔ e.interims = [] ∧ ¬ e.framing.IsChunked)
  := by
  refine ⟨fun stream hblank reads hreads => ?_, decodes_iff e⟩
  rw [hreads.result.1]
  exact result_of_behindBlank hblank

/-- The head of a response that tells how its body is sent. -/
def okHead (name value : Text) (h : Writable (name, value)) : Head where
  status := 200
  reason := ['O', 'K']
  fields := [(name, value)]
  three_digits := by decide
  reason_chars := List.all_eq_true.mp rfl
  writable := List.forall_mem_singleton.mpr h

/-- A body with its length. -/
def lengthExchange : Exchange where
  interims := []
  final := okHead contentLengthLabel [' ', '2'] ⟨by decide, rfl, List.all_eq_true.mp rfl⟩
  framing := .length ['h', 'i']
  interim := fun _ h => absurd h List.not_mem_nil
  isFinal := le_refl 200
  fits := ⟨rfl, by decide, List.forall_mem_singleton.mpr ⟨by decide, rfl, rfl⟩⟩

/-- A body of one chunk. -/
def chunkedExchange : Exchange where
  interims := []
  final := okHead "Transfer-Encoding".toList Framing.chunkedCoding
    ⟨by decide, rfl, List.all_eq_true.mp rfl⟩
  framing := .chunked
    [⟨⟨['2'], [], fun _ h => absurd h List.not_mem_nil, fun _ h => by cases h⟩, ['h', 'i'], by decide,
      rfl⟩]
    ⟨['0'], [], fun _ h => absurd h List.not_mem_nil, fun _ h => by cases h⟩ []
  interim := fun _ h => absurd h List.not_mem_nil
  isFinal := le_refl 200
  fits := ⟨⟨Framing.chunkedCoding, rfl, rfl⟩, rfl, fun _ h => absurd h List.not_mem_nil⟩

/-- A part of a status line, and a response with its length, in two reads. -/
theorem flxHttpResult_decodes_two :
  flxHttpResult [.bytes ['H', 'T'], .bytes ['T', 'P']] = ⟨0, invalidResponse⟩ ∧ Decodes lengthExchange
  := by
  have hreads : Partition [['H', 'T'], ['T', 'P']] ['H', 'T', 'T', 'P'] := by
    refine ⟨rfl, ?_⟩
    simp
  obtain ⟨hbroken, hdecodes⟩ := flxHttpResult_decodes lengthExchange
  exact ⟨hbroken ['H', 'T', 'T', 'P'] (by decide) _ hreads, hdecodes.mpr ⟨rfl, fun h => h⟩⟩

/-- The body is handed on with the sizes of its chunks. -/
theorem not_decodes_chunked : ¬ ∀ e : Exchange, Decodes e := by
  intro h
  exact ((decodes_iff chunkedExchange).mp (h chunkedExchange)).2 trivial

end Caster.Req
