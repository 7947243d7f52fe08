import Mathlib.Data.Rat.Defs
import Mathlib.Tactic

/-!
# Reading JSON

A reader of the documents of RFC 8259 with exact numbers.  A text is a list of bytes, and a
string of the value read is the bytes of its UTF-8 text.  A fuel argument bounds the depth
of the recursion: a document is read with more fuel than it has bytes.
-/

namespace JsonReader

/-- A JSON value, the members of an object in the order of the text. -/
inductive Value where
  | null
  | bool (value : Bool)
  | number (value : ℚ)
  | string (bytes : List UInt8)
  | array (elems : List Value)
  | object (members : List (List UInt8 × Value))

/-- A text is the UTF-8 encoding of some characters. -/
def IsUtf8 (text : List UInt8) : Prop :=
  ∃ chars : List Char, text = chars.flatMap String.utf8EncodeChar

/-! ### Whitespace and numbers -/

/-- A byte of insignificant whitespace. -/
def isWhite (b : UInt8) : Bool := b = 32 ∨ b = 9 ∨ b = 10 ∨ b = 13

/-- A text without the whitespace at its start. -/
def skipWhite (text : List UInt8) : List UInt8 := text.dropWhile isWhite

/-- A decimal digit. -/
def isDigit (b : UInt8) : Bool := 48 ≤ b ∧ b ≤ 57

/-- The number some digits denote. -/
def digitsValue (digits : List UInt8) : ℕ :=
  digits.foldl (fun n d => 10 * n + (d.toNat - 48)) 0

/-- The whole part of a number: one digit, or several of which the first is not a zero. -/
def readWhole (text : List UInt8) : Option (ℕ × List UInt8) :=
  match text.takeWhile isDigit with
  | [] => none
  | d :: digits =>
    if d = 48 ∧ digits ≠ [] then none
    else some (digitsValue (d :: digits), text.dropWhile isDigit)

/-- The fraction of a number, zero where none is written. -/
def readFraction : List UInt8 → Option (ℚ × List UInt8)
  | [] => some (0, [])
  | b :: text =>
    if b = 46 then
      match text.takeWhile isDigit with
      | [] => none
      | d :: digits =>
        some (digitsValue (d :: digits) / 10 ^ (d :: digits).length, text.dropWhile isDigit)
    else some (0, b :: text)

/-- The digits of an exponent. -/
def readExponentDigits (text : List UInt8) : Option (ℕ × List UInt8) :=
  match text.takeWhile isDigit with
  | [] => none
  | d :: digits => some (digitsValue (d :: digits), text.dropWhile isDigit)

/-- An exponent with its sign. -/
def readExponentSign : List UInt8 → Option (ℤ × List UInt8)
  | [] => none
  | b :: text =>
    if b = 45 then (readExponentDigits text).map fun (e, rest) => (-(e : ℤ), rest)
    else if b = 43 then (readExponentDigits text).map fun (e, rest) => ((e : ℤ), rest)
    else (readExponentDigits (b :: text)).map fun (e, rest) => ((e : ℤ), rest)

/-- The exponent of a number, zero where none is written. -/
def readExponent : List UInt8 → Option (ℤ × List UInt8)
  | [] => some (0, [])
  | b :: text => if b = 101 ∨ b = 69 then readExponentSign text else some (0, b :: text)

/-- A number without a sign. -/
def readUnsigned (text : List UInt8) : Option (ℚ × List UInt8) := do
  let (whole, text) ← readWhole text
  let (fraction, text) ← readFraction text
  let (exponent, text) ← readExponent text
  some ((whole + fraction) * 10 ^ exponent, text)

/-- A number. -/
def readNumber : List UInt8 → Option (ℚ × List UInt8)
  | [] => none
  | b :: text =>
    if b = 45 then (readUnsigned text).map fun (q, rest) => (-q, rest)
    else readUnsigned (b :: text)

/-! ### Strings -/

/-- The value of a hexadecimal digit. -/
def hexDigit (b : UInt8) : Option ℕ :=
  if 48 ≤ b ∧ b ≤ 57 then some (b.toNat - 48)
  else if 97 ≤ b ∧ b ≤ 102 then some (b.toNat - 87)
  else if 65 ≤ b ∧ b ≤ 70 then some (b.toNat - 55)
  else none

/-- A code unit written as four hexadecimal digits. -/
def readUnit : List UInt8 → Option (ℕ × List UInt8)
  | a :: b :: c :: d :: rest => do
    let a ← hexDigit a
    let b ← hexDigit b
    let c ← hexDigit c
    let d ← hexDigit d
    some (((a * 16 + b) * 16 + c) * 16 + d, rest)
  | _ => none

/-- The bytes of a code point. -/
def encode (codePoint : ℕ) : List UInt8 := String.utf8EncodeChar (Char.ofNat codePoint)

/-- The low half of a surrogate pair, after its escape. -/
def readLow : List UInt8 → Option (ℕ × List UInt8)
  | a :: b :: text =>
    if a = 92 ∧ b = 117 then
      (readUnit text).filter fun (unit, _) => 0xDC00 ≤ unit ∧ unit ≤ 0xDFFF
    else none
  | _ => none

/-- The code point of an escape `\u`, with the replacement character for a half of a
surrogate pair that stands alone. -/
def readUnicode (text : List UInt8) : Option (List UInt8 × List UInt8) := do
  let (unit, rest) ← readUnit text
  if unit < 0xD800 ∨ 0xDFFF < unit then some (encode unit, rest)
  else if 0xDC00 ≤ unit then some (encode 0xFFFD, rest)
  else
    match readLow rest with
    | some (low, rest) => some (encode (0x10000 + (unit - 0xD800) * 1024 + (low - 0xDC00)), rest)
    | none => some (encode 0xFFFD, rest)

/-- What follows the backslash of an escape. -/
def readEscape : List UInt8 → Option (List UInt8 × List UInt8)
  | [] => none
  | b :: text =>
    if b = 34 ∨ b = 92 ∨ b = 47 then some ([b], text)
    else if b = 98 then some ([8], text)
    else if b = 102 then some ([12], text)
    else if b = 110 then some ([10], text)
    else if b = 114 then some ([13], text)
    else if b = 116 then some ([9], text)
    else if b = 117 then readUnicode text
    else none

/-- One character of a string: the bytes it stands for.  A control character is written by
an escape only. -/
def readChar : List UInt8 → Option (List UInt8 × List UInt8)
  | [] => none
  | b :: text =>
    if b = 92 then readEscape text
    else if b < 32 then none
    else some ([b], text)

/-- The characters of a string up to the quote that closes it. -/
def readChars : ℕ → List UInt8 → Option (List UInt8 × List UInt8)
  | 0, _ => none
  | _ + 1, [] => none
  | fuel + 1, b :: text =>
    if b = 34 then some ([], text)
    else do
      let (bytes, text) ← readChar (b :: text)
      let (more, text) ← readChars fuel text
      some (bytes ++ more, text)

/-- A string after its opening quote. -/
def readString (text : List UInt8) : Option (List UInt8 × List UInt8) :=
  readChars text.length text

/-! ### Values -/

/-- A fixed text at the start of a text. -/
def readLiteral (literal text : List UInt8) : Option (List UInt8) :=
  if literal <+: text then some (text.drop literal.length) else none

/-- The three names of values. -/
def nullText : List UInt8 := ['n', 'u', 'l', 'l'].map Char.toUInt8
def trueText : List UInt8 := ['t', 'r', 'u', 'e'].map Char.toUInt8
def falseText : List UInt8 := ['f', 'a', 'l', 's', 'e'].map Char.toUInt8

/-- The name of a member, with the colon behind it. -/
def readName : List UInt8 → Option (List UInt8 × List UInt8)
  | [] => none
  | b :: text =>
    if b = 34 then do
      let (name, text) ← readString text
      let text ← readLiteral [58] (skipWhite text)
      some (name, skipWhite text)
    else none

mutual

/-- A value at the start of a text. -/
def readValue : ℕ → List UInt8 → Option (Value × List UInt8)
  | 0, _ => none
  | _ + 1, [] => none
  | fuel + 1, b :: text =>
    if b = 34 then (readString text).map fun (bytes, rest) => (.string bytes, rest)
    else if b = 91 then
      match readLiteral [93] (skipWhite text) with
      | some rest => some (.array [], rest)
      | none => (readElems fuel (skipWhite text)).map fun (elems, rest) => (.array elems, rest)
    else if b = 123 then
      match readLiteral [125] (skipWhite text) with
      | some rest => some (.object [], rest)
      | none =>
        (readMembers fuel (skipWhite text)).map fun (members, rest) => (.object members, rest)
    else if b = 110 then (readLiteral nullText (b :: text)).map fun rest => (.null, rest)
    else if b = 116 then (readLiteral trueText (b :: text)).map fun rest => (.bool true, rest)
    else if b = 102 then (readLiteral falseText (b :: text)).map fun rest => (.bool false, rest)
    else (readNumber (b :: text)).map fun (q, rest) => (.number q, rest)

/-- The elements of an array up to the bracket that closes it. -/
def readElems : ℕ → List UInt8 → Option (List Value × List UInt8)
  | 0, _ => none
  | fuel + 1, text => do
    let (value, text) ← readValue fuel text
    match readLiteral [44] (skipWhite text) with
    | some text =>
      let (values, text) ← readElems fuel (skipWhite text)
      some (value :: values, text)
    | none =>
      let text ← readLiteral [93] (skipWhite text)
      some ([value], text)

/-- The members of an object up to the brace that closes it. -/
def readMembers : ℕ → List UInt8 → Option (List (List UInt8 × Value) × List UInt8)
  | 0, _ => none
  | fuel + 1, text => do
    let (name, text) ← readName text
    let (value, text) ← readValue fuel text
    match readLiteral [44] (skipWhite text) with
    | some text =>
      let (members, text) ← readMembers fuel (skipWhite text)
      some ((name, value) :: members, text)
    | none =>
      let text ← readLiteral [125] (skipWhite text)
      some ([(name, value)], text)

end

/-- The value of a document: a value with nothing but whitespace around it. -/
def readDocument (text : List UInt8) : Option Value := do
  let (value, rest) ← readValue (text.length + 1) (skipWhite text)
  if skipWhite rest = [] then some value else none

/-! ### Reading what was printed -/

/-- A text that cannot continue a number. -/
def EndsNumber (text : List UInt8) : Prop :=
  ∀ b ∈ text.head?, isDigit b = false ∧ b ≠ 46 ∧ b ≠ 101 ∧ b ≠ 69

/-- The decimal digits of a number. -/
def digits (n : ℕ) : List UInt8 := (Nat.toDigits 10 n).map Char.toUInt8

theorem toNat_toUInt8 {c : Char} (h : c.isDigit = true) :
  c.toUInt8.toNat = c.toNat ∧ isDigit c.toUInt8 = true
  := by
  have hbounds : 48 ≤ c.toNat ∧ c.toNat ≤ 57 := by
    simp only [Char.isDigit, Bool.and_eq_true, decide_eq_true_eq, ge_iff_le] at h
    exact h
  have hval : c.toUInt8.toNat = c.toNat := by
    have hmod : c.toUInt8.toNat = c.toNat % 256 := rfl
    omega
  constructor
  · exact hval
  · simp only [isDigit, decide_eq_true_eq, UInt8.le_iff_toNat_le, hval]
    exact hbounds

theorem isDigit_of_mem_digits {n : ℕ} {b : UInt8} (h : b ∈ digits n) :
  isDigit b = true
  := by
  obtain ⟨c, hc, rfl⟩ := List.mem_map.mp h
  exact (toNat_toUInt8 (Nat.isDigit_of_mem_toDigits (by decide) (by decide) hc)).2

theorem digitsValue_map {l : List Char} (h : ∀ c ∈ l, c.isDigit = true) :
  digitsValue (l.map Char.toUInt8) = Nat.ofDigitChars 10 l 0
  := by
  unfold digitsValue Nat.ofDigitChars
  rw [List.foldl_map]
  apply List.foldl_ext
  intro n c hc
  rw [(toNat_toUInt8 (h c hc)).1]
  rfl

theorem digitsValue_digits (n : ℕ) :
  digitsValue (digits n) = n
  := by
  have hdigit : ∀ c ∈ Nat.toDigits 10 n, c.isDigit = true := fun c hc =>
    Nat.isDigit_of_mem_toDigits (by decide) (by decide) hc
  unfold digits
  rw [digitsValue_map hdigit, Nat.ofDigitChars_ten_toDigits]

/-- The digits of a positive number do not start with a zero. -/
theorem head?_toDigits {n : ℕ} (h : 0 < n) :
  (Nat.toDigits 10 n).head? ≠ some '0'
  := by
  induction n using Nat.strongRecOn with
  | ind n ih =>
    by_cases hlt : n < 10
    · rw [Nat.toDigits_of_lt_base hlt]
      interval_cases n <;> decide
    · have hne : Nat.toDigits 10 (n / 10) ≠ [] := Nat.toDigits_ne_nil
      rw [Nat.toDigits_of_base_le (by decide) (by omega), List.head?_append_of_ne_nil _ hne]
      exact ih (n / 10) (by omega) (by omega)

/-- A number starts with a zero when it is the digit zero only. -/
theorem digits_eq_cons {n : ℕ} {ds : List UInt8} (h : digits n = 48 :: ds) :
  ds = []
  := by
  rcases Nat.eq_zero_or_pos n with rfl | hpos
  · have hzero : digits 0 = [48] := rfl
    rw [hzero] at h
    exact (List.cons.inj h).2.symm
  · apply absurd _ (head?_toDigits hpos)
    unfold digits at h
    rw [List.map_eq_cons_iff] at h
    obtain ⟨c, cs, hlist, hc, _⟩ := h
    have hmem : c ∈ Nat.toDigits 10 n := by
      rw [hlist]
      exact List.mem_cons_self
    have hval := (toNat_toUInt8 (Nat.isDigit_of_mem_toDigits (by decide) (by decide) hmem)).1
    rw [hc] at hval
    rw [hlist, List.head?_cons]
    congr 1
    apply Char.toNat_inj.mp
    exact hval.symm

theorem takeWhile_digits (n : ℕ) {text : List UInt8} (h : EndsNumber text) :
  (digits n ++ text).takeWhile isDigit = digits n
  := by
  rw [List.takeWhile_append_of_pos fun b hb => isDigit_of_mem_digits hb]
  cases text with
  | nil => simp
  | cons b text => simp [(h b rfl).1]

theorem dropWhile_digits (n : ℕ) {text : List UInt8} (h : EndsNumber text) :
  (digits n ++ text).dropWhile isDigit = text
  := by
  rw [List.dropWhile_append_of_pos fun b hb => isDigit_of_mem_digits hb]
  cases text with
  | nil => rfl
  | cons b text => simp [(h b rfl).1]

theorem readWhole_digits (n : ℕ) {text : List UInt8} (h : EndsNumber text) :
  readWhole (digits n ++ text) = some (n, text)
  := by
  unfold readWhole
  rw [takeWhile_digits n h, dropWhile_digits n h]
  have hvalue := digitsValue_digits n
  cases hlist : digits n with
  | nil => exact absurd hlist (by simp [digits, Nat.toDigits_ne_nil])
  | cons d ds =>
    have hzero : ¬ (d = 48 ∧ ds ≠ []) := by
      rintro ⟨rfl, hds⟩
      exact hds (digits_eq_cons hlist)
    rw [hlist] at hvalue
    simp only [hzero, if_false, hvalue]

theorem readUnsigned_digits (n : ℕ) {text : List UInt8} (h : EndsNumber text) :
  readUnsigned (digits n ++ text) = some ((n : ℚ), text)
  := by
  unfold readUnsigned
  rw [readWhole_digits n h]
  cases text with
  | nil => simp [readFraction, readExponent]
  | cons b text => simp [readFraction, readExponent, h b rfl]

/-- The text of an integer: its digits, after a sign if it is negative. -/
def integerText (i : ℤ) : List UInt8 :=
  if i < 0 then 45 :: digits i.natAbs else digits i.natAbs

theorem exists_digits_cons (n : ℕ) :
  ∃ d ds, digits n = d :: ds ∧ isDigit d = true
  := by
  cases hlist : digits n with
  | nil => exact absurd hlist (by simp [digits, Nat.toDigits_ne_nil])
  | cons d ds =>
    refine ⟨d, ds, rfl, isDigit_of_mem_digits (n := n) ?_⟩
    rw [hlist]
    exact List.mem_cons_self

theorem readNumber_integerText (i : ℤ) {text : List UInt8} (h : EndsNumber text) :
  readNumber (integerText i ++ text) = some ((i : ℚ), text)
  := by
  have hcast : ((i.natAbs : ℤ) : ℚ) = ((i.natAbs : ℕ) : ℚ) := rfl
  unfold integerText
  split
  · rename_i hneg
    have habs : (i.natAbs : ℤ) = -i := by omega
    rw [habs] at hcast
    simp only [List.cons_append, readNumber, if_true, readUnsigned_digits _ h, Option.map_some, ← hcast]
    push_cast
    rw [neg_neg]
  · rename_i hpos
    have habs : (i.natAbs : ℤ) = i := by omega
    rw [habs] at hcast
    obtain ⟨d, ds, hlist, hd⟩ := exists_digits_cons i.natAbs
    have hsign : d ≠ 45 := by
      rintro rfl
      exact absurd hd (by decide)
    have hread := readUnsigned_digits i.natAbs h
    rw [hlist, List.cons_append] at hread ⊢
    simp only [readNumber, if_neg hsign, hread, hcast]

/-! ### UTF-8 -/

theorem isUtf8_nil : IsUtf8 [] := ⟨[], rfl⟩

theorem isUtf8_append {s t : List UInt8} (hs : IsUtf8 s) (ht : IsUtf8 t) :
  IsUtf8 (s ++ t)
  := by
  obtain ⟨cs, rfl⟩ := hs
  obtain ⟨ds, rfl⟩ := ht
  exact ⟨cs ++ ds, List.flatMap_append.symm⟩

theorem isUtf8_encode (c : Char) : IsUtf8 (String.utf8EncodeChar c) := ⟨[c], by simp⟩

theorem encode_of_lt (c : Char) (h : c.toNat < 128) :
  String.utf8EncodeChar c = [c.toUInt8]
  := by
  have hle : c.val.toNat ≤ 0x7f := Nat.lt_succ_iff.mp h
  unfold String.utf8EncodeChar
  rw [if_pos hle]
  rfl

/-- Every byte of a character outside ASCII has its high bit set. -/
theorem le_of_mem_encode (c : Char) (h : 128 ≤ c.toNat) :
  ∀ b ∈ String.utf8EncodeChar c, 128 ≤ b.toNat
  := by
  have hle : ¬ c.val.toNat ≤ 0x7f := by
    apply Nat.not_le.mpr
    exact h
  unfold String.utf8EncodeChar
  intro b hb
  simp only [hle, if_false] at hb
  split at hb
  · simp only [List.mem_cons, List.not_mem_nil, or_false] at hb
    rcases hb with rfl | rfl <;> rw [UInt8.toNat_ofNat'] <;> omega
  · split at hb
    · simp only [List.mem_cons, List.not_mem_nil, or_false] at hb
      rcases hb with rfl | rfl | rfl <;> rw [UInt8.toNat_ofNat'] <;> omega
    · simp only [List.mem_cons, List.not_mem_nil, or_false] at hb
      rcases hb with rfl | rfl | rfl | rfl <;> rw [UInt8.toNat_ofNat'] <;> omega

theorem toNat_ofNat_of_lt {n : ℕ} (h : n < 128) : (Char.ofNat n).toNat = n := by
  have hvalid : n.isValidChar := Or.inl (by omega)
  have hchar : Char.ofNat n = Char.ofNatAux n hvalid := dif_pos hvalid
  rw [hchar]
  rfl

theorem isUtf8_singleton {b : UInt8} (h : b.toNat < 128) :
  IsUtf8 [b]
  := by
  have hval := toNat_ofNat_of_lt h
  refine ⟨[Char.ofNat b.toNat], ?_⟩
  have hbyte : (Char.ofNat b.toNat).toUInt8 = b := by
    apply UInt8.toNat_inj.mp
    have hmod : (Char.ofNat b.toNat).toUInt8.toNat = (Char.ofNat b.toNat).toNat % 256 := rfl
    omega
  rw [List.flatMap_singleton, encode_of_lt _ (by omega), hbyte]

theorem isUtf8_of_ascii {text : List UInt8} (h : ∀ b ∈ text, b.toNat < 128) :
  IsUtf8 text
  := by
  induction text with
  | nil => exact isUtf8_nil
  | cons b text ih =>
    rw [List.forall_mem_cons] at h
    exact isUtf8_append (isUtf8_singleton h.1) (ih h.2)

/-- Bytes that ASCII characters are replaced by leave a text the encoding of one. -/
theorem isUtf8_flatMap {f : UInt8 → List UInt8} (hlow : ∀ b, b.toNat < 128 → IsUtf8 (f b))
    (hhigh : ∀ b, 128 ≤ b.toNat → f b = [b]) {text : List UInt8} (h : IsUtf8 text) :
  IsUtf8 (text.flatMap f)
  := by
  obtain ⟨chars, rfl⟩ := h
  induction chars with
  | nil => exact isUtf8_nil
  | cons c chars ih =>
    rw [List.flatMap_cons, List.flatMap_append]
    apply isUtf8_append _ ih
    by_cases hc : c.toNat < 128
    · have hmod : c.toUInt8.toNat = c.toNat % 256 := rfl
      rw [encode_of_lt c hc, List.flatMap_singleton]
      exact hlow _ (by omega)
    · have hkeep : (String.utf8EncodeChar c).flatMap f = String.utf8EncodeChar c := by
        have hbytes := le_of_mem_encode c (Nat.not_lt.mp hc)
        generalize String.utf8EncodeChar c = bytes at hbytes
        induction bytes with
        | nil => rfl
        | cons b bytes ih =>
          rw [List.forall_mem_cons] at hbytes
          rw [List.flatMap_cons, hhigh b hbytes.1, ih hbytes.2, List.singleton_append]
      rw [hkeep]
      exact isUtf8_encode c

theorem isUtf8_integerText (i : ℤ) :
  IsUtf8 (integerText i)
  := by
  have hdigits : ∀ b ∈ digits i.natAbs, b.toNat < 128 := by
    intro b hb
    have hdigit := isDigit_of_mem_digits hb
    simp only [isDigit, decide_eq_true_eq, UInt8.le_iff_toNat_le] at hdigit
    exact lt_of_le_of_lt hdigit.2 (by decide)
  apply isUtf8_of_ascii
  unfold integerText
  split
  · rw [List.forall_mem_cons]
    exact ⟨by decide, hdigits⟩
  · exact hdigits

/-! ### Reading punctuation -/

@[simp]
theorem readLiteral_append (literal text : List UInt8) :
  readLiteral literal (literal ++ text) = some text
  := by
  simp [readLiteral]

@[simp]
theorem readLiteral_singleton (a b : UInt8) (text : List UInt8) :
  readLiteral [a] (b :: text) = if a = b then some text else none
  := by
  simp [readLiteral]

theorem readValue_nullText (fuel : ℕ) (rest : List UInt8) :
  readValue (fuel + 1) (nullText ++ rest) = some (.null, rest)
  := by
  have hread : readValue (fuel + 1) (nullText ++ rest)
      = (readLiteral nullText (nullText ++ rest)).map fun rest => (.null, rest) := rfl
  rw [hread, readLiteral_append, Option.map_some]

theorem readValue_trueText (fuel : ℕ) (rest : List UInt8) :
  readValue (fuel + 1) (trueText ++ rest) = some (.bool true, rest)
  := by
  have hread : readValue (fuel + 1) (trueText ++ rest)
      = (readLiteral trueText (trueText ++ rest)).map fun rest => (.bool true, rest) := rfl
  rw [hread, readLiteral_append, Option.map_some]

theorem readValue_falseText (fuel : ℕ) (rest : List UInt8) :
  readValue (fuel + 1) (falseText ++ rest) = some (.bool false, rest)
  := by
  have hread : readValue (fuel + 1) (falseText ++ rest)
      = (readLiteral falseText (falseText ++ rest)).map fun rest => (.bool false, rest) := rfl
  rw [hread, readLiteral_append, Option.map_some]

theorem skipWhite_cons {b : UInt8} (h : isWhite b = false) (text : List UInt8) :
  skipWhite (b :: text) = b :: text
  := by
  simp [skipWhite, h]

end JsonReader
