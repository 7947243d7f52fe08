import Mathlib.Data.List.TakeWhile
import Caster.Library.JsonReader

/-!
# Texts of JSON values

Texts that a reader reads as a value, if a condition holds, and that it does not read otherwise,
whatever follows them.  Texts of arrays and objects are made of texts of their elements and members,
with any whitespace between them.
-/

namespace JsonReader

/-- A text, the value it is the text of, and the condition for it. -/
structure Piece where
  text : List UInt8
  value : Value
  legible : Prop

/-- The value is read if the condition holds, and nothing otherwise. -/
structure Piece.Reads (p : Piece) : Prop where
  starts : ∃ b tail, p.text = b :: tail ∧ isWhite b = false ∧ b ≠ 93
  reads : ∀ fuel rest, p.text.length ≤ fuel → EndsNumber rest → p.legible →
    readValue fuel (p.text ++ rest) = some (p.value, rest)
  fails : ∀ fuel rest, p.text.length ≤ fuel → EndsNumber rest → ¬ p.legible →
    readValue fuel (p.text ++ rest) = none

/-- A member of an object. -/
structure Member extends Piece where
  name : List UInt8

/-- A name without quotes, backslashes and control characters. -/
def IsPlainName (name : List UInt8) : Prop := ∀ b ∈ name, b ≠ 34 ∧ b ≠ 92 ∧ 32 ≤ b

instance (name : List UInt8) : Decidable (IsPlainName name) := List.decidableBAll _ name

/-- Insignificant whitespace. -/
def IsWhite (text : List UInt8) : Prop := ∀ b ∈ text, isWhite b = true

instance (text : List UInt8) : Decidable (IsWhite text) := List.decidableBAll _ text

/-! ### Whitespace -/

theorem skipWhite_append {white : List UInt8} (h : IsWhite white) (text : List UInt8) :
  skipWhite (white ++ text) = skipWhite text
  := List.dropWhile_append_of_pos h

theorem skipWhite_append_cons {white : List UInt8} (h : IsWhite white) {b : UInt8}
    (hb : isWhite b = false) (text : List UInt8) :
  skipWhite (white ++ b :: text) = b :: text
  := (skipWhite_append h _).trans (skipWhite_cons hb text)

theorem Piece.Reads.skipWhite {p : Piece} (hp : p.Reads) {white : List UInt8} (h : IsWhite white)
    (rest : List UInt8) :
  skipWhite (white ++ (p.text ++ rest)) = p.text ++ rest
  := by
  obtain ⟨b, tail, htext, hb, -⟩ := hp.starts
  rw [htext, List.cons_append]
  exact skipWhite_append_cons h hb _

theorem endsNumber_white {white : List UInt8} (h : IsWhite white) {b : UInt8} (hb : isDigit b = false)
    (hb' : b ≠ 46 ∧ b ≠ 101 ∧ b ≠ 69) (rest : List UInt8) :
  EndsNumber (white ++ b :: rest)
  := by
  intro c hc
  cases white with
  | nil =>
    cases hc
    exact ⟨hb, hb'⟩
  | cons w white =>
    have hw := h w List.mem_cons_self
    cases hc
    rcases of_decide_eq_true hw with rfl | rfl | rfl | rfl <;> decide

/-! ### Strings and numbers -/

theorem readChars_plain {name : List UInt8} (h : IsPlainName name) (rest : List UInt8) {fuel : ℕ}
    (hfuel : name.length < fuel) :
  readChars fuel (name ++ 34 :: rest) = some (name, rest)
  := by
  induction name generalizing fuel with
  | nil =>
    obtain ⟨fuel, rfl⟩ : ∃ n, fuel = n + 1 := ⟨fuel - 1, by simp only [List.length_nil] at hfuel; omega⟩
    rfl
  | cons b name ih =>
    obtain ⟨fuel, rfl⟩ : ∃ n, fuel = n + 1 := ⟨fuel - 1, by omega⟩
    obtain ⟨⟨hquote, hslash, hlow⟩, hname⟩ := List.forall_mem_cons.mp h
    have hlength : name.length < fuel := by
      simp only [List.length_cons] at hfuel
      omega
    have hchar : readChar (b :: (name ++ 34 :: rest)) = some ([b], name ++ 34 :: rest) := by
      rw [readChar, if_neg hslash, if_neg (UInt8.not_lt.mpr hlow)]
    rw [List.cons_append, readChars, if_neg hquote, hchar]
    simp [ih hname hlength]

/-- The name of a member, and the whitespace behind its colon. -/
theorem readName_plain {name gap : List UInt8} (h : IsPlainName name) {p : Piece} (hp : p.Reads)
    (hgap : IsWhite gap) (rest : List UInt8) :
  readName (34 :: (name ++ 34 :: 58 :: (gap ++ (p.text ++ rest)))) = some (name, p.text ++ rest)
  := by
  have hcolon : skipWhite (58 :: (gap ++ (p.text ++ rest))) = 58 :: (gap ++ (p.text ++ rest)) :=
    skipWhite_cons (by decide) _
  have hstring : readString (name ++ 34 :: 58 :: (gap ++ (p.text ++ rest))) =
      some (name, 58 :: (gap ++ (p.text ++ rest))) := by
    apply readChars_plain h
    simp only [List.length_append, List.length_cons]
    omega
  rw [readName, if_pos rfl, hstring]
  simp [hcolon, readLiteral_singleton, hp.skipWhite hgap]

/-- A string between quotes, as a reader of strings reads it. -/
theorem Piece.Reads.of_string {body bytes : List UInt8} {legible : Prop}
    (hreads : ∀ rest, legible → readString (body ++ 34 :: rest) = some (bytes, rest))
    (hfails : ∀ rest, ¬ legible → readString (body ++ 34 :: rest) = none) :
  Piece.Reads ⟨34 :: (body ++ [34]), .string bytes, legible⟩
  := by
  have hread (fuel : ℕ) (rest : List UInt8) (hfuel : (34 :: (body ++ [34])).length ≤ fuel) :
      readValue fuel (34 :: (body ++ [34]) ++ rest) =
        (readString (body ++ 34 :: rest)).map fun r => (.string r.1, r.2) := by
    obtain ⟨fuel, rfl⟩ : ∃ n, fuel = n + 1 :=
      ⟨fuel - 1, by simp only [List.length_cons] at hfuel; omega⟩
    rw [List.cons_append, readValue, if_pos rfl, List.append_assoc, List.singleton_append]
  refine ⟨⟨34, _, rfl, by decide, by decide⟩, fun fuel rest hfuel _ h => ?_,
    fun fuel rest hfuel _ h => ?_⟩
  · rw [hread fuel rest hfuel, hreads rest h]
    rfl
  · rw [hread fuel rest hfuel, hfails rest h]
    rfl

section

variable {write : UInt8 → List UInt8} {legible : UInt8 → Bool}
  (hread : ∀ b rest, readChar (write b ++ rest) = if legible b then some ([b], rest) else none)
  (hstart : ∀ b, ∃ c tail, write b = c :: tail ∧ c ≠ 34)

include hstart

theorem length_le_flatMap (text : List UInt8) : text.length ≤ (text.flatMap write).length := by
  induction text with
  | nil => exact le_rfl
  | cons b text ih =>
    obtain ⟨c, tail, hwrite, -⟩ := hstart b
    rw [List.flatMap_cons, hwrite]
    simp only [List.length_append, List.length_cons]
    omega

include hread

theorem readChars_flatMap (text rest : List UInt8) {fuel : ℕ} (hfuel : text.length < fuel) :
  readChars fuel (text.flatMap write ++ 34 :: rest)
    = if text.all legible then some (text, rest) else none
  := by
  induction text generalizing fuel with
  | nil =>
    obtain ⟨fuel, rfl⟩ : ∃ n, fuel = n + 1 := ⟨fuel - 1, by omega⟩
    simp [readChars]
  | cons b text ih =>
    rw [List.length_cons] at hfuel
    obtain ⟨fuel, rfl⟩ : ∃ n, fuel = n + 1 := ⟨fuel - 1, by omega⟩
    have hchar := hread b (text.flatMap write ++ 34 :: rest)
    obtain ⟨c, tail, hwrite, hc⟩ := hstart b
    rw [List.flatMap_cons, List.append_assoc]
    rw [hwrite, List.cons_append] at hchar ⊢
    have hrest := @ih fuel (by omega)
    simp only [readChars, if_neg hc, hchar, List.all_cons]
    by_cases hb : legible b = true
    · by_cases htext : text.all legible = true
      · simp [hb, hrest, htext]
      · simp [hb, hrest, htext]
    · simp [hb]

/-- A string whose bytes are written one by one is read back if a reader finds each of its bytes in
what is written for it. -/
theorem readString_flatMap (text rest : List UInt8) :
  readString (text.flatMap write ++ 34 :: rest)
    = if text.all legible then some (text, rest) else none
  := by
  have hlength := length_le_flatMap hstart text
  apply readChars_flatMap hread hstart
  simp only [List.length_append, List.length_cons]
  omega

end

/-- A string whose bytes are written one by one. -/
def stringPiece (write : UInt8 → List UInt8) (legible : UInt8 → Bool) (text : List UInt8) : Piece :=
  ⟨34 :: (text.flatMap write ++ [34]), .string text, text.all legible = true⟩

theorem reads_stringPiece {write : UInt8 → List UInt8} {legible : UInt8 → Bool}
    (hread : ∀ b rest, readChar (write b ++ rest) = if legible b then some ([b], rest) else none)
    (hstart : ∀ b, ∃ c tail, write b = c :: tail ∧ c ≠ 34) (text : List UInt8) :
  (stringPiece write legible text).Reads
  := by
  apply Piece.Reads.of_string
  · intro rest h
    rw [readString_flatMap hread hstart, if_pos h]
  · intro rest h
    rw [readString_flatMap hread hstart, if_neg h]

/-- The text of an integer. -/
def integerPiece (i : ℤ) : Piece := ⟨integerText i, .number i, True⟩

theorem reads_integerPiece (i : ℤ) : (integerPiece i).Reads := by
  obtain ⟨d, ds, hdigits, hd⟩ := exists_digits_cons i.natAbs
  have hstart : ∃ b tail, integerText i = b :: tail ∧ (b = 45 ∨ isDigit b = true) := by
    unfold integerText
    split_ifs
    · exact ⟨45, _, rfl, Or.inl rfl⟩
    · exact ⟨d, ds, hdigits, Or.inr hd⟩
  obtain ⟨b, tail, htext, hb⟩ := hstart
  have hother : ∀ c, c ≠ 45 → isDigit c = false → b ≠ c := by
    rintro c hc hdigit rfl
    rcases hb with rfl | hb
    · exact hc rfl
    · rw [hdigit] at hb
      cases hb
  have hwhite : isWhite b = false := by
    rw [isWhite, decide_eq_false_iff_not, not_or, not_or, not_or]
    exact ⟨hother _ (by decide) (by decide), hother _ (by decide) (by decide),
      hother _ (by decide) (by decide), hother _ (by decide) (by decide)⟩
  refine ⟨⟨b, tail, htext, hwhite, hother _ (by decide) (by decide)⟩, fun fuel rest hfuel hrest _ => ?_,
    fun _ _ _ _ h => absurd trivial h⟩
  have hfuel' : 1 ≤ fuel := by
    change (integerText i).length ≤ fuel at hfuel
    rw [htext, List.length_cons] at hfuel
    omega
  obtain ⟨fuel, rfl⟩ : ∃ n, fuel = n + 1 := ⟨fuel - 1, by omega⟩
  have hnumber := readNumber_integerText i hrest
  change readValue (fuel + 1) (integerText i ++ rest) = _
  rw [htext, List.cons_append] at hnumber ⊢
  rw [readValue, if_neg (hother 34 (by decide) (by decide)), if_neg (hother 91 (by decide) (by decide)),
    if_neg (hother 123 (by decide) (by decide)), if_neg (hother 110 (by decide) (by decide)),
    if_neg (hother 116 (by decide) (by decide)), if_neg (hother 102 (by decide) (by decide)), hnumber]
  rfl

/-! ### Members -/

section

variable (gap between : List UInt8)

/-- The text of a member. -/
def memberText (m : Member) : List UInt8 := 34 :: (m.name ++ 34 :: 58 :: (gap ++ m.text))

/-- The texts of some members with commas between them. -/
def membersText : List Member → List UInt8
  | [] => []
  | [m] => memberText gap m
  | m :: ms => memberText gap m ++ 44 :: (between ++ membersText ms)

/-- The texts of some elements with commas between them. -/
def elemsText : List Piece → List UInt8
  | [] => []
  | [p] => p.text
  | p :: ps => p.text ++ 44 :: (between ++ elemsText ps)

end

variable {gap between closing : List UInt8}

theorem readMember {m : Member} (hm : IsPlainName m.name ∧ m.Reads) (hgap : IsWhite gap) {fuel : ℕ}
    {rest : List UInt8} (hfuel : (memberText gap m).length ≤ fuel) (hrest : EndsNumber rest)
    {α : Type} (f : List UInt8 → Value × List UInt8 → Option α) :
  (m.legible → ((readName (memberText gap m ++ rest)).bind fun (name, text) =>
      (readValue fuel text).bind (f name)) = f m.name (m.value, rest)) ∧
    (¬ m.legible → ((readName (memberText gap m ++ rest)).bind fun (name, text) =>
      (readValue fuel text).bind (f name)) = none)
  := by
  have hname : readName (memberText gap m ++ rest) = some (m.name, m.text ++ rest) := by
    have hread := readName_plain hm.1 hm.2 hgap rest
    simpa [memberText] using hread
  have hlength : m.text.length ≤ fuel := by
    simp only [memberText, List.length_cons, List.length_append] at hfuel
    omega
  rw [hname]
  constructor
  · intro hlegible
    simp [hm.2.reads fuel rest hlength hrest hlegible]
  · intro hlegible
    simp [hm.2.fails fuel rest hlength hrest hlegible]

/-- What is read behind the value of a member. -/
def readBehindMember (fuel : ℕ) (name : List UInt8) :
    Value × List UInt8 → Option (List (List UInt8 × Value) × List UInt8)
  | (value, text) =>
    match readLiteral [44] (skipWhite text) with
    | some text => do
      let (members, text) ← readMembers fuel (skipWhite text)
      some ((name, value) :: members, text)
    | none => do
      let text ← readLiteral [125] (skipWhite text)
      some ([(name, value)], text)

/-- The members of an object up to the brace that closes it. -/
theorem readMembers_text {m : Member} {ms : List Member}
    (h : ∀ m' ∈ m :: ms, IsPlainName m'.name ∧ m'.Reads) (hgap : IsWhite gap)
    (hbetween : IsWhite between) (hclosing : IsWhite closing) {fuel : ℕ} (rest : List UInt8)
    (hfuel : (membersText gap between (m :: ms)).length < fuel) :
  ((∀ m' ∈ m :: ms, m'.legible) →
      readMembers fuel (membersText gap between (m :: ms) ++ (closing ++ 125 :: rest)) =
        some ((m :: ms).map fun m' => (m'.name, m'.value), rest)) ∧
    ((∃ m' ∈ m :: ms, ¬ m'.legible) →
      readMembers fuel (membersText gap between (m :: ms) ++ (closing ++ 125 :: rest)) = none)
  := by
  induction ms generalizing m fuel with
  | nil =>
    obtain ⟨fuel, rfl⟩ : ∃ n, fuel = n + 1 := ⟨fuel - 1, by omega⟩
    have hends : EndsNumber (closing ++ 125 :: rest) := endsNumber_white hclosing (by decide) (by decide) _
    have hclose : skipWhite (closing ++ 125 :: rest) = 125 :: rest :=
      skipWhite_append_cons hclosing (by decide) _
    have hread := readMember (h m List.mem_cons_self) hgap (Nat.lt_succ_iff.mp hfuel) hends
      (readBehindMember fuel)
    constructor
    · intro hlegible
      refine (hread.1 (hlegible m List.mem_cons_self)).trans ?_
      simp [readBehindMember, hclose, readLiteral_singleton]
    · rintro ⟨m', hmem, hlegible⟩
      rw [List.mem_singleton] at hmem
      subst hmem
      exact hread.2 hlegible
  | cons m₁ ms ih =>
    obtain ⟨fuel, rfl⟩ : ∃ n, fuel = n + 1 := ⟨fuel - 1, by omega⟩
    obtain ⟨hm, hms⟩ := List.forall_mem_cons.mp h
    have htext : membersText gap between (m :: m₁ :: ms) =
        memberText gap m ++ 44 :: (between ++ membersText gap between (m₁ :: ms)) := rfl
    rw [htext, List.append_assoc, List.cons_append, List.append_assoc]
    rw [htext] at hfuel
    simp only [List.length_append, List.length_cons] at hfuel
    have hends : EndsNumber (44 :: (between ++
        (membersText gap between (m₁ :: ms) ++ (closing ++ 125 :: rest)))) := by
      rintro c ⟨⟩
      decide
    have hcomma : skipWhite (44 :: (between ++
        (membersText gap between (m₁ :: ms) ++ (closing ++ 125 :: rest)))) =
        44 :: (between ++ (membersText gap between (m₁ :: ms) ++ (closing ++ 125 :: rest))) :=
      skipWhite_cons (by decide) _
    -- the next member starts with the quote of its name
    have hnext : skipWhite (between ++ (membersText gap between (m₁ :: ms) ++ (closing ++ 125 :: rest))) =
        membersText gap between (m₁ :: ms) ++ (closing ++ 125 :: rest) := by
      obtain ⟨tail, htail⟩ : ∃ tail, membersText gap between (m₁ :: ms) = 34 :: tail := by
        cases ms with
        | nil => exact ⟨_, rfl⟩
        | cons m₂ ms => exact ⟨_, rfl⟩
      rw [htail, List.cons_append]
      exact skipWhite_append_cons hbetween (by decide) _
    have hread := @readMember gap m hm hgap fuel _ (by omega) hends _
      (readBehindMember fuel)
    obtain ⟨hreads, hfails⟩ := @ih m₁ hms fuel (by omega)
    constructor
    · intro hlegible
      obtain ⟨hfirst, hothers⟩ := List.forall_mem_cons.mp hlegible
      refine (hread.1 hfirst).trans ?_
      simp [readBehindMember, hcomma, readLiteral_singleton, hnext, hreads hothers]
    · rintro ⟨m', hmem, hlegible⟩
      by_cases hfirst : m.legible
      · refine (hread.1 hfirst).trans ?_
        have hothers : ∃ m' ∈ m₁ :: ms, ¬ m'.legible := by
          rcases List.mem_cons.mp hmem with rfl | hmem
          · exact absurd hfirst hlegible
          · exact ⟨m', hmem, hlegible⟩
        simp [readBehindMember, hcomma, readLiteral_singleton, hnext, hfails hothers]
      · exact hread.2 hfirst

/-- The texts of elements start as the text of the first one does. -/
theorem skipWhite_elemsText {p : Piece} {ps : List Piece} (hp : p.Reads) {white : List UInt8}
    (hwhite : IsWhite white) (rest : List UInt8) :
  skipWhite (white ++ (elemsText between (p :: ps) ++ rest)) = elemsText between (p :: ps) ++ rest ∧
    readLiteral [93] (elemsText between (p :: ps) ++ rest) = none
  := by
  obtain ⟨b, tail, htext, hb, hb'⟩ := hp.starts
  obtain ⟨tail', htail⟩ : ∃ tail', elemsText between (p :: ps) = b :: tail' := by
    cases ps with
    | nil => exact ⟨tail, htext⟩
    | cons p' ps => exact ⟨tail ++ 44 :: (between ++ elemsText between (p' :: ps)), by simp [elemsText, htext]⟩
  rw [htail, List.cons_append]
  exact ⟨skipWhite_append_cons hwhite hb _, by simp [readLiteral_singleton, hb'.symm]⟩

/-- The elements of an array up to the bracket that closes it. -/
theorem readElems_text {p : Piece} {ps : List Piece} (h : ∀ p' ∈ p :: ps, p'.Reads)
    (hbetween : IsWhite between) (hclosing : IsWhite closing) {fuel : ℕ} (rest : List UInt8)
    (hfuel : (elemsText between (p :: ps)).length < fuel) :
  ((∀ p' ∈ p :: ps, p'.legible) →
      readElems fuel (elemsText between (p :: ps) ++ (closing ++ 93 :: rest)) =
        some ((p :: ps).map Piece.value, rest)) ∧
    ((∃ p' ∈ p :: ps, ¬ p'.legible) →
      readElems fuel (elemsText between (p :: ps) ++ (closing ++ 93 :: rest)) = none)
  := by
  induction ps generalizing p fuel with
  | nil =>
    obtain ⟨fuel, rfl⟩ : ∃ n, fuel = n + 1 := ⟨fuel - 1, by omega⟩
    have hp := h p List.mem_cons_self
    have hends : EndsNumber (closing ++ 93 :: rest) := endsNumber_white hclosing (by decide) (by decide) _
    have hclose : skipWhite (closing ++ 93 :: rest) = 93 :: rest :=
      skipWhite_append_cons hclosing (by decide) _
    have hlength : p.text.length ≤ fuel := Nat.lt_succ_iff.mp hfuel
    constructor
    · intro hlegible
      have hread := hp.reads fuel _ hlength hends (hlegible p List.mem_cons_self)
      simp [elemsText, readElems, hread, hclose, readLiteral_singleton]
    · rintro ⟨p', hmem, hlegible⟩
      rw [List.mem_singleton] at hmem
      subst hmem
      simp [elemsText, readElems, hp.fails fuel _ hlength hends hlegible]
  | cons p₁ ps ih =>
    obtain ⟨fuel, rfl⟩ : ∃ n, fuel = n + 1 := ⟨fuel - 1, by omega⟩
    obtain ⟨hp, hps⟩ := List.forall_mem_cons.mp h
    have htext : elemsText between (p :: p₁ :: ps) =
        p.text ++ 44 :: (between ++ elemsText between (p₁ :: ps)) := rfl
    rw [htext, List.append_assoc, List.cons_append, List.append_assoc]
    rw [htext] at hfuel
    simp only [List.length_append, List.length_cons] at hfuel
    have hends : EndsNumber (44 :: (between ++
        (elemsText between (p₁ :: ps) ++ (closing ++ 93 :: rest)))) := by
      rintro c ⟨⟩
      decide
    have hcomma : skipWhite (44 :: (between ++
        (elemsText between (p₁ :: ps) ++ (closing ++ 93 :: rest)))) =
        44 :: (between ++ (elemsText between (p₁ :: ps) ++ (closing ++ 93 :: rest))) :=
      skipWhite_cons (by decide) _
    have hnext := (@skipWhite_elemsText between p₁ ps (hps p₁ List.mem_cons_self) between hbetween
      (closing ++ 93 :: rest)).1
    obtain ⟨hreads, hfails⟩ := @ih p₁ hps fuel (by omega)
    have hlength : p.text.length ≤ fuel := by omega
    constructor
    · intro hlegible
      obtain ⟨hfirst, hothers⟩ := List.forall_mem_cons.mp hlegible
      have hread := hp.reads fuel _ hlength hends hfirst
      simp [readElems, hread, hcomma, readLiteral_singleton, hnext, hreads hothers]
    · rintro ⟨p', hmem, hlegible⟩
      by_cases hfirst : p.legible
      · have hread := hp.reads fuel _ hlength hends hfirst
        have hothers : ∃ p' ∈ p₁ :: ps, ¬ p'.legible := by
          rcases List.mem_cons.mp hmem with rfl | hmem
          · exact absurd hfirst hlegible
          · exact ⟨p', hmem, hlegible⟩
        simp [readElems, hread, hcomma, readLiteral_singleton, hnext, hfails hothers]
      · simp [readElems, hp.fails fuel _ hlength hends hfirst]

/-! ### Objects and arrays -/

/-- An object with whitespace behind its brace, behind the colons and the commas, and before the brace
that closes it. -/
def objectPiece (opening gap between closing : List UInt8) (members : List Member) : Piece where
  text := 123 :: (opening ++ (membersText gap between members ++ (closing ++ [125])))
  value := .object (members.map fun m => (m.name, m.value))
  legible := ∀ m ∈ members, m.legible

/-- An array with whitespace behind its bracket, behind the commas, and before the bracket that closes
it. -/
def arrayPiece (opening between closing : List UInt8) (elems : List Piece) : Piece where
  text := 91 :: (opening ++ (elemsText between elems ++ (closing ++ [93])))
  value := .array (elems.map Piece.value)
  legible := ∀ p ∈ elems, p.legible

theorem reads_objectPiece {opening : List UInt8} {m : Member} {ms : List Member}
    (h : ∀ m' ∈ m :: ms, IsPlainName m'.name ∧ m'.Reads) (hopening : IsWhite opening)
    (hgap : IsWhite gap) (hbetween : IsWhite between) (hclosing : IsWhite closing) :
  (objectPiece opening gap between closing (m :: ms)).Reads
  := by
  have hread (fuel : ℕ) (rest : List UInt8) :
      readValue (fuel + 1) ((objectPiece opening gap between closing (m :: ms)).text ++ rest) =
        (readMembers fuel (membersText gap between (m :: ms) ++ (closing ++ 125 :: rest))).map
          fun r => (.object r.1, r.2) := by
    obtain ⟨tail, htail⟩ : ∃ tail, membersText gap between (m :: ms) = 34 :: tail := by
      cases ms with
      | nil => exact ⟨_, rfl⟩
      | cons m₂ ms => exact ⟨_, rfl⟩
    have hskip : skipWhite (opening ++ (membersText gap between (m :: ms) ++ (closing ++ 125 :: rest))) =
        membersText gap between (m :: ms) ++ (closing ++ 125 :: rest) := by
      rw [htail, List.cons_append]
      exact skipWhite_append_cons hopening (by decide) _
    have hliteral : readLiteral [125] (membersText gap between (m :: ms) ++ (closing ++ 125 :: rest)) =
        none := by
      rw [htail, List.cons_append]
      simp [readLiteral_singleton]
    have htext : (objectPiece opening gap between closing (m :: ms)).text ++ rest =
        123 :: (opening ++ (membersText gap between (m :: ms) ++ (closing ++ 125 :: rest))) := by
      simp [objectPiece]
    rw [htext, readValue, if_neg (by decide), if_neg (by decide), if_pos rfl, hskip, hliteral]
  have hlength : ∀ fuel, (objectPiece opening gap between closing (m :: ms)).text.length ≤ fuel →
      ∃ n, fuel = n + 1 ∧ (membersText gap between (m :: ms)).length < n := by
    intro fuel hfuel
    simp only [objectPiece, List.length_cons, List.length_append, List.length_nil] at hfuel
    exact ⟨fuel - 1, by omega, by omega⟩
  refine ⟨⟨123, _, rfl, by decide, by decide⟩, fun fuel rest hfuel _ hlegible => ?_,
    fun fuel rest hfuel _ hlegible => ?_⟩
  · obtain ⟨n, rfl, hn⟩ := hlength fuel hfuel
    rw [hread, (readMembers_text h hgap hbetween hclosing rest hn).1 hlegible]
    rfl
  · obtain ⟨n, rfl, hn⟩ := hlength fuel hfuel
    have hsome : ∃ m' ∈ m :: ms, ¬ m'.legible := by
      by_contra hnone
      push Not at hnone
      exact hlegible hnone
    rw [hread, (readMembers_text h hgap hbetween hclosing rest hn).2 hsome]
    rfl

theorem reads_arrayPiece {opening : List UInt8} {elems : List Piece} (h : ∀ p ∈ elems, p.Reads)
    (hopening : IsWhite opening) (hbetween : IsWhite between) (hclosing : IsWhite closing) :
  (arrayPiece opening between closing elems).Reads
  := by
  have hstarts : ∃ b tail, (arrayPiece opening between closing elems).text = b :: tail ∧
      isWhite b = false ∧ b ≠ 93 := ⟨91, _, rfl, by decide, by decide⟩
  have htext (rest : List UInt8) : (arrayPiece opening between closing elems).text ++ rest =
      91 :: (opening ++ (elemsText between elems ++ (closing ++ 93 :: rest))) := by
    simp [arrayPiece]
  cases elems with
  | nil =>
    refine ⟨hstarts, fun fuel rest hfuel _ _ => ?_, fun _ _ _ _ hlegible => absurd (by simp [arrayPiece]) hlegible⟩
    obtain ⟨fuel, rfl⟩ : ∃ n, fuel = n + 1 :=
      ⟨fuel - 1, by simp only [arrayPiece, List.length_cons] at hfuel; omega⟩
    have hskip : skipWhite (opening ++ (closing ++ 93 :: rest)) = 93 :: rest := by
      rw [skipWhite_append hopening]
      exact skipWhite_append_cons hclosing (by decide) _
    rw [htext, readValue, if_neg (by decide), if_pos rfl, elemsText, List.nil_append, hskip,
      readLiteral_singleton, if_pos rfl]
    rfl
  | cons p ps =>
    have hread (fuel : ℕ) (rest : List UInt8) :
        readValue (fuel + 1) ((arrayPiece opening between closing (p :: ps)).text ++ rest) =
          (readElems fuel (elemsText between (p :: ps) ++ (closing ++ 93 :: rest))).map
            fun r => (.array r.1, r.2) := by
      obtain ⟨hskip, hliteral⟩ := @skipWhite_elemsText between p ps (h p List.mem_cons_self) opening
        hopening (closing ++ 93 :: rest)
      rw [htext, readValue, if_neg (by decide), if_pos rfl, hskip, hliteral]
    have hlength : ∀ fuel, (arrayPiece opening between closing (p :: ps)).text.length ≤ fuel →
        ∃ n, fuel = n + 1 ∧ (elemsText between (p :: ps)).length < n := by
      intro fuel hfuel
      simp only [arrayPiece, List.length_cons, List.length_append, List.length_nil] at hfuel
      exact ⟨fuel - 1, by omega, by omega⟩
    refine ⟨hstarts, fun fuel rest hfuel _ hlegible => ?_, fun fuel rest hfuel _ hlegible => ?_⟩
    · obtain ⟨n, rfl, hn⟩ := hlength fuel hfuel
      rw [hread, (readElems_text h hbetween hclosing rest hn).1 hlegible]
      rfl
    · obtain ⟨n, rfl, hn⟩ := hlength fuel hfuel
      have hsome : ∃ p' ∈ p :: ps, ¬ p'.legible := by
        by_contra hnone
        push Not at hnone
        exact hlegible hnone
      rw [hread, (readElems_text h hbetween hclosing rest hn).2 hsome]
      rfl

/-! ### UTF-8 -/

theorem IsWhite.isUtf8 {white : List UInt8} (h : IsWhite white) : IsUtf8 white := by
  apply isUtf8_of_ascii
  intro b hb
  rcases of_decide_eq_true (h b hb) with rfl | rfl | rfl | rfl <;> decide

theorem isUtf8_of_all {text : List UInt8} (h : text.all (·.toNat < 128) = true) : IsUtf8 text := by
  apply isUtf8_of_ascii
  simpa using h

theorem isUtf8_cons {b : UInt8} (hb : b.toNat < 128) {text : List UInt8} (h : IsUtf8 text) :
  IsUtf8 (b :: text)
  := isUtf8_append (isUtf8_singleton hb) h

theorem isUtf8_stringPiece {write : UInt8 → List UInt8}
    (hlow : ∀ b, b.toNat < 128 → IsUtf8 (write b)) (hhigh : ∀ b, 128 ≤ b.toNat → write b = [b])
    (legible : UInt8 → Bool) {text : List UInt8} (h : IsUtf8 text) :
  IsUtf8 (stringPiece write legible text).text
  := by
  apply isUtf8_cons (by decide)
  apply isUtf8_append (isUtf8_flatMap hlow hhigh h)
  exact isUtf8_singleton (by decide)

theorem isUtf8_memberText {m : Member} (hgap : IsWhite gap) (h : IsUtf8 m.name ∧ IsUtf8 m.text) :
  IsUtf8 (memberText gap m)
  := by
  apply isUtf8_cons (by decide)
  apply isUtf8_append h.1
  apply isUtf8_cons (by decide)
  apply isUtf8_cons (by decide)
  exact isUtf8_append hgap.isUtf8 h.2

theorem isUtf8_objectPiece {opening : List UInt8} {members : List Member} (hopening : IsWhite opening)
    (hgap : IsWhite gap) (hbetween : IsWhite between) (hclosing : IsWhite closing)
    (h : ∀ m ∈ members, IsUtf8 m.name ∧ IsUtf8 m.text) :
  IsUtf8 (objectPiece opening gap between closing members).text
  := by
  have hmembers : IsUtf8 (membersText gap between members) := by
    induction members with
    | nil => exact isUtf8_nil
    | cons m ms ih =>
      obtain ⟨hm, hms⟩ := List.forall_mem_cons.mp h
      have hmember := isUtf8_memberText hgap hm
      cases ms with
      | nil => exact hmember
      | cons m' ms =>
        apply isUtf8_append hmember
        apply isUtf8_cons (by decide)
        exact isUtf8_append hbetween.isUtf8 (ih hms)
  apply isUtf8_cons (by decide)
  apply isUtf8_append hopening.isUtf8
  apply isUtf8_append hmembers
  apply isUtf8_append hclosing.isUtf8
  exact isUtf8_singleton (by decide)

theorem isUtf8_arrayPiece {opening : List UInt8} {elems : List Piece} (hopening : IsWhite opening)
    (hbetween : IsWhite between) (hclosing : IsWhite closing) (h : ∀ p ∈ elems, IsUtf8 p.text) :
  IsUtf8 (arrayPiece opening between closing elems).text
  := by
  have helems : IsUtf8 (elemsText between elems) := by
    induction elems with
    | nil => exact isUtf8_nil
    | cons p ps ih =>
      obtain ⟨hp, hps⟩ := List.forall_mem_cons.mp h
      cases ps with
      | nil => exact hp
      | cons p' ps =>
        apply isUtf8_append hp
        apply isUtf8_cons (by decide)
        exact isUtf8_append hbetween.isUtf8 (ih hps)
  apply isUtf8_cons (by decide)
  apply isUtf8_append hopening.isUtf8
  apply isUtf8_append helems
  apply isUtf8_append hclosing.isUtf8
  exact isUtf8_singleton (by decide)

/-! ### Documents -/

/-- A document with whitespace behind its value. -/
theorem Piece.Reads.readDocument {p : Piece} (hp : p.Reads) {white : List UInt8} (h : IsWhite white) :
  (p.legible → JsonReader.readDocument (p.text ++ white) = some p.value) ∧
    (¬ p.legible → JsonReader.readDocument (p.text ++ white) = none)
  := by
  have hskip : JsonReader.skipWhite (p.text ++ white) = p.text ++ white :=
    @Piece.Reads.skipWhite p hp [] (by simp [IsWhite]) white
  have hends : EndsNumber white := by
    intro c hc
    cases white with
    | nil => cases hc
    | cons w white =>
      have hw := h w List.mem_cons_self
      cases hc
      rcases of_decide_eq_true hw with rfl | rfl | rfl | rfl <;> decide
  have hrest : JsonReader.skipWhite white = [] := List.dropWhile_eq_nil_iff.mpr h
  have hfuel : p.text.length ≤ (p.text ++ white).length + 1 := by
    rw [List.length_append]
    omega
  unfold JsonReader.readDocument
  rw [hskip]
  constructor
  · intro hlegible
    rw [hp.reads _ _ hfuel hends hlegible]
    simp [hrest]
  · intro hlegible
    rw [hp.fails _ _ hfuel hends hlegible]
    rfl

end JsonReader
