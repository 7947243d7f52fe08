import Caster.Library.Scanner

/-!
# The tokens of C

A text of C is taken apart from its start: each token is the longest one that can be read.
Comments, strings and characters are no tokens here.
-/

namespace CLang

theorem lawfulBEq_chars : LawfulBEq (List Char) := inferInstance

attribute [local instance] lawfulBEq_chars

/-- A token. -/
inductive Tok where
  | ident (text : List Char)
  | number (text : List Char)
  | punct (text : List Char)
deriving DecidableEq, Repr

def isIdentStart (c : Char) : Bool := c.isAlpha || c = '_'

def isIdentChar (c : Char) : Bool := c.isAlphanum || c = '_'

def isSpace (c : Char) : Bool := c ∈ [' ', '\t', '\n', '\r', Char.ofNat 11, Char.ofNat 12]

/-- The words that are no names: the keywords, and `bool`, which `stdbool.h` replaces with one. -/
def keywords : List (List Char) :=
  ["auto", "break", "case", "char", "const", "continue", "default", "do", "double", "else", "enum", "extern",
    "float", "for", "goto", "if", "inline", "int", "long", "register", "restrict", "return", "short", "signed",
    "sizeof", "static", "struct", "switch", "typedef", "union", "unsigned", "void", "volatile", "while",
    "_Alignas", "_Alignof", "_Atomic", "_Bool", "_Complex", "_Generic", "_Imaginary", "_Noreturn",
    "_Static_assert", "_Thread_local", "bool"].map String.toList

def punctuators : List (List Char) :=
  ["[", "]", "(", ")", ".", "->", "++", "--", "&", "*", "+", "-", "~", "!", "/", "%", "<<", ">>", "<", ">",
    "<=", ">=", "==", "!=", "^", "|", "&&", "||", "?", ":", ";", "...", "=", "*=", "/=", "%=", "+=", "-=",
    "<<=", ">>=", "&=", "^=", "|=", ",", "#", "##", "<:", ":>", "<%", "%>", "%:", "%:%:", "\x7b", "\x7d"].map
    String.toList

/-- The longest punctuator a text starts with. -/
def punctuatorAt (text : List Char) : Option (List Char) :=
  [4, 3, 2, 1].findSome? fun n => if text.take n ∈ punctuators then some (text.take n) else none

/-- A character of a number behind its first one. -/
def isNumberChar (c : Char) : Bool := isIdentChar c || c = '.'

/-- The characters of a number behind its first one, and what is behind them.  A sign is one of them
behind the letter of an exponent. -/
def numberFrom : List Char → List Char × List Char
  | [] => ([], [])
  | [c] => if isNumberChar c then ([c], []) else ([], [c])
  | c :: sign :: rest =>
    if isNumberChar c then
      if c ∈ ['e', 'E', 'p', 'P'] ∧ (sign = '+' ∨ sign = '-') then
        (c :: sign :: (numberFrom rest).1, (numberFrom rest).2)
      else (c :: (numberFrom (sign :: rest)).1, (numberFrom (sign :: rest)).2)
    else ([], c :: sign :: rest)

/-- One token, or a space, is read from a text. -/
def step (c : Char) (rest : List Char) : Except Unit (Option Tok × List Char) :=
  if isSpace c then .ok (none, rest)
  else if isIdentStart c then
    .ok (some (.ident (c :: rest.takeWhile isIdentChar)), rest.dropWhile isIdentChar)
  else if c.isDigit ∨ (c = '.' ∧ rest.head?.any Char.isDigit) then
    .ok (some (.number (c :: (numberFrom rest).1)), (numberFrom rest).2)
  else if c = '/' ∧ (rest.head? = some '/' ∨ rest.head? = some '*') then .error ()
  else
    match punctuatorAt (c :: rest) with
    | some text => .ok (some (.punct text), rest.drop (text.length - 1))
    | none => .error ()

theorem numberFrom_suffix (text : List Char) : (numberFrom text).2 <:+ text := by
  induction text using numberFrom.induct with
  | case1 => exact List.suffix_rfl
  | case2 c hc =>
    rw [numberFrom, if_pos hc]
    exact List.nil_suffix
  | case3 c hc =>
    rw [numberFrom, if_neg hc]
  | case4 c sign rest hc hsign ih =>
    rw [numberFrom, if_pos hc, if_pos hsign]
    exact (ih.trans (List.suffix_cons _ _)).trans (List.suffix_cons _ _)
  | case5 c sign rest hc hsign ih =>
    rw [numberFrom, if_pos hc, if_neg hsign]
    exact ih.trans (List.suffix_cons _ _)
  | case6 c sign rest hc =>
    rw [numberFrom, if_neg hc]

theorem step_suffix {s s' : Unit} {c : Char} {rest rest' : List Char} {o : Option Tok}
    (h : ((step c rest).map fun result => (result.1, s, result.2)) = .ok (o, s', rest')) :
  rest' <:+ rest
  := by
  unfold step at h
  split_ifs at h
  · cases h
    exact List.suffix_rfl
  · cases h
    exact List.dropWhile_suffix _
  · cases h
    exact numberFrom_suffix rest
  · cases h
  · split at h
    · cases h
      exact List.drop_suffix _ _
    · cases h

/-- The scanner of C. -/
def lexer : Scanner Char Unit Tok Unit where
  step s c rest := (step c rest).map fun result => (result.1, s, result.2)
  suffix := step_suffix

/-- A text has some tokens. -/
def Lexes (text : List Char) (tokens : List Tok) : Prop :=
  ∃ pieces, lexer.scan () text = .ok (pieces, ()) ∧ pieces.filterMap Piece.output = tokens

theorem lexes_nil : Lexes [] [] := ⟨[], rfl, rfl⟩

/-- A text has one sequence of tokens at most. -/
theorem Lexes.unique {text : List Char} {tokens tokens' : List Tok} (h : Lexes text tokens)
    (h' : Lexes text tokens') :
  tokens = tokens'
  := by
  obtain ⟨pieces, hscan, rfl⟩ := h
  obtain ⟨pieces', hscan', rfl⟩ := h'
  rw [hscan] at hscan'
  cases hscan'
  rfl

theorem Lexes.cons {c : Char} {rest rest' : List Char} {o : Option Tok} {tokens : List Tok}
    (hstep : step c rest = .ok (o, rest')) (h : Lexes rest' tokens) :
  Lexes (c :: rest) (o.toList ++ tokens)
  := by
  obtain ⟨pieces, hscan, rfl⟩ := h
  have hlexer : lexer.step () c rest = .ok (o, (), rest') := by
    show (step c rest).map _ = _
    rw [hstep]
    rfl
  refine ⟨⟨(c :: rest).take ((c :: rest).length - rest'.length), o⟩ :: pieces, ?_, ?_⟩
  · rw [Scanner.scan_cons, hlexer]
    simp only [hscan]
  · cases o <;> rfl

/-! ### Tokens in front of a text -/

/-- A space is left out. -/
theorem Lexes.space {text : List Char} {tokens : List Tok} (h : Lexes text tokens) :
  Lexes (' ' :: text) tokens
  := @Lexes.cons ' ' text text none tokens rfl h

/-- A text that no word or number goes on with. -/
def Delimited (text : List Char) : Prop := ∀ c ∈ text.head?, isIdentChar c = false ∧ c ≠ '.'

theorem dropWhile_delimited {rest : List Char} (h : Delimited rest) :
  rest.takeWhile isIdentChar = [] ∧ rest.dropWhile isIdentChar = rest
  := by
  cases rest with
  | nil => exact ⟨rfl, rfl⟩
  | cons c rest =>
    have hc := (h c rfl).1
    exact ⟨List.takeWhile_cons_of_neg (by simp [hc]), List.dropWhile_cons_of_neg (by simp [hc])⟩

theorem isSpace_of_isIdentChar {c : Char} (h : isIdentChar c = true) : isSpace c = false := by
  rw [← Bool.not_eq_true]
  intro hspace
  simp only [isSpace, decide_eq_true_eq, List.mem_cons, List.not_mem_nil, or_false] at hspace
  rcases hspace with rfl | rfl | rfl | rfl | rfl | rfl <;> exact absurd h (by decide)

theorem isIdentChar_of_isIdentStart {c : Char} (h : isIdentStart c = true) : isIdentChar c = true := by
  simp only [isIdentStart, isIdentChar, Char.isAlphanum, Bool.or_eq_true, decide_eq_true_eq] at h ⊢
  tauto

theorem isIdentChar_of_isDigit {c : Char} (h : c.isDigit = true) : isIdentChar c = true := by
  simp [isIdentChar, Char.isAlphanum, h]

/-- A word. -/
theorem Lexes.ident {c : Char} {word rest : List Char} {tokens : List Tok} (hc : isIdentStart c = true)
    (hword : ∀ d ∈ word, isIdentChar d = true) (hrest : Delimited rest) (h : Lexes rest tokens) :
  Lexes (c :: word ++ rest) (.ident (c :: word) :: tokens)
  := by
  obtain ⟨htake, hdrop⟩ := dropWhile_delimited hrest
  have hspace := isSpace_of_isIdentChar (isIdentChar_of_isIdentStart hc)
  have hstep : step c (word ++ rest) = .ok (some (.ident (c :: word)), rest) := by
    rw [step, if_neg (by simp [hspace]), if_pos hc, List.takeWhile_append_of_pos hword, htake,
      List.dropWhile_append_of_pos hword, hdrop, List.append_nil]
  exact Lexes.cons hstep h

theorem numberFrom_digits {digits rest : List Char} (hdigits : ∀ d ∈ digits, d.isDigit = true)
    (hrest : Delimited rest) :
  numberFrom (digits ++ rest) = (digits, rest)
  := by
  induction digits with
  | nil =>
    have hstop : ∀ c ∈ rest.head?, ¬ isNumberChar c = true := by
      intro c hc
      obtain ⟨hident, hdot⟩ := hrest c hc
      simp [isNumberChar, hident, hdot]
    rw [List.nil_append]
    rcases rest with _ | ⟨c, _ | ⟨sign, rest⟩⟩
    · rfl
    · rw [numberFrom, if_neg (hstop c rfl)]
    · rw [numberFrom, if_neg (hstop c rfl)]
  | cons d digits ih =>
    have hd := hdigits d List.mem_cons_self
    have hnumber : isNumberChar d = true := by simp [isNumberChar, isIdentChar_of_isDigit hd]
    have hexp : ¬ d ∈ ['e', 'E', 'p', 'P'] := by
      intro hmem
      simp only [List.mem_cons, List.not_mem_nil, or_false] at hmem
      rcases hmem with rfl | rfl | rfl | rfl <;> exact absurd hd (by decide)
    have hrec := ih fun d' h => hdigits d' (List.mem_cons_of_mem _ h)
    rw [List.cons_append]
    cases htext : digits ++ rest with
    | nil =>
      obtain ⟨rfl, rfl⟩ := List.append_eq_nil_iff.mp htext
      rw [numberFrom, if_pos hnumber]
    | cons sign text =>
      rw [htext] at hrec
      rw [numberFrom, if_pos hnumber, if_neg fun h => hexp h.1, hrec]

/-- A number without letters and dots. -/
theorem Lexes.number {c : Char} {digits rest : List Char} {tokens : List Tok} (hc : c.isDigit = true)
    (hdigits : ∀ d ∈ digits, d.isDigit = true) (hrest : Delimited rest) (h : Lexes rest tokens) :
  Lexes (c :: digits ++ rest) (.number (c :: digits) :: tokens)
  := by
  have hspace := isSpace_of_isIdentChar (isIdentChar_of_isDigit hc)
  have hword : ¬ isIdentStart c = true := by
    intro hstart
    rcases Bool.or_eq_true _ _ ▸ hstart with hstart | hstart
    · have hdef : c.isAlpha =
          (decide (c.val ≥ 'A'.val ∧ c.val ≤ 'Z'.val) || (c.val ≥ 'a'.val && c.val ≤ 'z'.val)) := rfl
      rw [hdef] at hstart
      simp only [Char.isDigit, Bool.or_eq_true, Bool.and_eq_true, decide_eq_true_eq, ge_iff_le,
        UInt32.le_iff_toNat_le] at hstart hc
      simp at hstart hc
      omega
    · rw [of_decide_eq_true hstart] at hc
      exact absurd hc (by decide)
  have hstep : step c (digits ++ rest) = .ok (some (.number (c :: digits)), rest) := by
    rw [step, if_neg (by simp [hspace]), if_neg hword, if_pos (Or.inl hc), numberFrom_digits hdigits hrest]
  exact Lexes.cons hstep h

/-- The longest punctuator is found. -/
theorem punctuatorAt_eq {text rest : List Char} (htext : text ∈ punctuators)
    (hlong : ∀ longer ∈ punctuators, longer <+: text ++ rest → longer.length ≤ text.length) :
  punctuatorAt (text ++ rest) = some text
  := by
  have hlength : ∀ p ∈ punctuators, 1 ≤ p.length ∧ p.length ≤ 4 := by decide
  obtain ⟨hpos, hle⟩ := hlength text htext
  have htake : (text ++ rest).take text.length = text := List.take_left
  -- what is found among more characters is not longer
  have hat {n : ℕ} (hn : text.length ≤ n) (hmem : (text ++ rest).take n ∈ punctuators) :
      (text ++ rest).take n = text := by
    have hshort := hlong _ hmem (List.take_prefix _ _)
    rw [List.length_take, List.length_append] at hshort
    rcases Nat.le_total n (text.length + rest.length) with hn' | hn'
    · rw [Nat.min_eq_left hn'] at hshort
      rw [Nat.le_antisymm hshort hn, htake]
    · rw [Nat.min_eq_right hn'] at hshort
      rw [List.length_eq_zero_iff.mp (by omega : rest.length = 0), List.append_nil]
      exact List.take_of_length_le hn
  have hfind (ns : List ℕ) (hsorted : ns.Pairwise (· > ·)) (hmem : text.length ∈ ns) :
      (ns.findSome? fun n =>
        if (text ++ rest).take n ∈ punctuators then some ((text ++ rest).take n) else none) = some text := by
    induction ns with
    | nil => exact absurd hmem List.not_mem_nil
    | cons n ns ih =>
      obtain ⟨hlarger, hsorted⟩ := List.pairwise_cons.mp hsorted
      have hn : text.length ≤ n := by
        rcases List.mem_cons.mp hmem with heq | hmem
        · exact Nat.le_of_eq heq
        · exact Nat.le_of_lt (hlarger _ hmem)
      rw [List.findSome?_cons]
      by_cases hpunct : (text ++ rest).take n ∈ punctuators
      · rw [if_pos hpunct, hat hn hpunct]
      · rw [if_neg hpunct]
        rcases List.mem_cons.mp hmem with heq | hmem
        · rw [← heq, htake] at hpunct
          exact absurd htext hpunct
        · exact ih hsorted hmem
  have hmem : text.length ∈ [4, 3, 2, 1] := by
    simp only [List.mem_cons, List.not_mem_nil, or_false]
    omega
  exact hfind [4, 3, 2, 1] (by decide) hmem

/-- A punctuator that is not part of a longer one. -/
theorem Lexes.punct {text rest : List Char} {tokens : List Tok} (htext : text ∈ punctuators)
    (hlong : ∀ longer ∈ punctuators, longer <+: text ++ rest → longer.length ≤ text.length)
    (hcomment : text = ['/'] → rest.head? ≠ some '/' ∧ rest.head? ≠ some '*')
    (hnumber : text ≠ ['.']) (h : Lexes rest tokens) :
  Lexes (text ++ rest) (.punct text :: tokens)
  := by
  have hkinds : punctuators.all fun p => p = ['.'] || p.head?.all fun c =>
      isSpace c = false ∧ isIdentStart c = false ∧ c.isDigit = false ∧
      (c = '.' → p.tail.head? = some '.') ∧ (c = '/' → p = ['/'] ∨ p = ['/', '=']) := by decide
  have hkind : ∀ p ∈ punctuators, p ≠ ['.'] → ∀ c ∈ p.head?, isSpace c = false ∧ isIdentStart c = false ∧
      c.isDigit = false ∧ (c = '.' → p.tail.head? = some '.') ∧
      (c = '/' → p = ['/'] ∨ p = ['/', '=']) := by
    intro p hp hne c hc
    have hp' := List.all_eq_true.mp hkinds p hp
    rw [Option.mem_def.mp hc] at hp'
    simpa only [hne, decide_false, Bool.false_or, Option.all_some, decide_eq_true_iff] using hp'
  have hfound := punctuatorAt_eq htext hlong
  obtain ⟨c, tail, rfl⟩ : ∃ c tail, text = c :: tail := by
    cases text with
    | nil => exact absurd htext (by decide)
    | cons c tail => exact ⟨c, tail, rfl⟩
  obtain ⟨hspace, hstart, hdigit, hdot, hslash⟩ := hkind _ htext hnumber c rfl
  have hpoint : ¬ (c.isDigit = true ∨ c = '.' ∧ (tail ++ rest).head?.any Char.isDigit = true) := by
    rintro (hd | ⟨heq, hany⟩)
    · rw [hdigit] at hd
      cases hd
    · have hnext := hdot heq
      cases tail with
      | nil => cases hnext
      | cons d tail =>
        obtain rfl : d = '.' := Option.some.inj hnext
        exact absurd hany (by simp [Char.isDigit])
  have hnot : ¬ (c = '/' ∧ ((tail ++ rest).head? = some '/' ∨ (tail ++ rest).head? = some '*')) := by
    rintro ⟨heq, hnext⟩
    rcases hslash heq with htail | htail
    · obtain ⟨-, rfl⟩ := List.cons.inj htail
      obtain ⟨h1, h2⟩ := hcomment htail
      exact hnext.elim h1 h2
    · obtain ⟨-, rfl⟩ := List.cons.inj htail
      exact absurd hnext (by simp)
  have hstep : step c (tail ++ rest) = .ok (some (.punct (c :: tail)), rest) := by
    rw [step, if_neg (by simp [hspace]), if_neg (by simp [hstart]), if_neg hpoint, if_neg hnot,
      ← List.cons_append, hfound]
    simp
  exact Lexes.cons hstep h

/-- A punctuator of one character, with which no longer one starts that goes on like the text. -/
theorem Lexes.char {c : Char} {rest : List Char} {tokens : List Tok} (hc : [c] ∈ punctuators)
    (hlong : ∀ p ∈ punctuators, p.head? = some c → p.length > 1 → p.tail.head? ≠ rest.head?)
    (hother : c ≠ '/' ∧ c ≠ '.') (h : Lexes rest tokens) :
  Lexes (c :: rest) (.punct [c] :: tokens)
  := by
  apply Lexes.punct hc _ (fun heq => absurd (List.cons.inj heq).1 hother.1)
    (fun heq => hother.2 (List.cons.inj heq).1) h
  intro longer hlonger hprefix
  by_contra hlt
  have hlength : longer.length > 1 := Nat.lt_of_not_le hlt
  rcases longer with _ | ⟨d, _ | ⟨next, tail⟩⟩
  · cases hlength
  · exact absurd hlength (by simp)
  · obtain ⟨rfl, htail⟩ := List.cons_prefix_cons.mp hprefix
    have hrest : next :: tail <+: rest := htail
    obtain ⟨after, hafter⟩ := hrest
    apply hlong _ hlonger rfl hlength
    rw [← hafter]
    rfl

/-- A punctuator with a space behind it. -/
theorem Lexes.spaced {text rest : List Char} {tokens : List Tok} (htext : text ∈ punctuators)
    (hnumber : text ≠ ['.']) (h : Lexes (' ' :: rest) tokens) :
  Lexes (text ++ ' ' :: rest) (.punct text :: tokens)
  := by
  have hspace : ∀ p ∈ punctuators, ' ' ∉ p := by decide
  apply Lexes.punct htext _ (fun _ => ⟨by simp, by simp⟩) hnumber h
  intro longer hlonger hprefix
  by_contra hlt
  have hlength : (text ++ [' ']).length ≤ longer.length := by
    rw [List.length_append, List.length_singleton]
    omega
  have hsub : text ++ [' '] <+: longer := by
    apply List.prefix_of_prefix_length_le _ hprefix hlength
    exact ⟨rest, by simp⟩
  exact hspace longer hlonger (hsub.subset (List.mem_append_right _ (List.mem_singleton_self _)))

end CLang
