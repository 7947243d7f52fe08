import Caster.Driver.RootPlaces
import Caster.Lex.ModuleTokens

/-!
# Import lines and tokens

The expansion looks for imports in the lines of a file before the lexer reads it.  The lexer
knows comments, raw strings and brackets, and it has one more end of a line, the carriage return.
-/

namespace Caster.Lex

open Driver TextPlaces

/-! ### Ends of pieces -/

/-- A move to the same line reads no end of a line. -/
theorem moves_plain {a b : LexState × Text} (h : Moves a b) :
  a.1.line ≤ b.1.line ∧
    (b.1.line = a.1.line → ∃ p, a.2 = p ++ b.2 ∧ ∀ c ∈ p, isLineEnd c = false)
  := by
  induction h with
  | refl => exact ⟨le_rfl, fun _ => ⟨[], rfl, by simp⟩⟩
  | @tail b d hmoves hmove ih =>
    cases hmove with
    | @char s c text hplain =>
      refine ⟨ih.1, fun hline => ?_⟩
      obtain ⟨p, hp, hall⟩ := ih.2 hline
      refine ⟨p ++ [c], by simp [hp], ?_⟩
      intro d hd
      rcases List.mem_append.mp hd with hd | hd
      · exact hall d hd
      · rwa [List.mem_singleton.mp hd]
    | @lineEnd s p text hend hwhole =>
      have hle := ih.1
      simp only [LexState.lineEnd] at hle ⊢
      constructor
      · omega
      · intro hline
        omega

theorem lexString_line {start s s' : LexState} {text out rest : Text}
    (h : lexString start text s = .ok (out, s', rest)) :
  s'.line = s.line
  := by
  induction text, s using lexString.induct generalizing out with
  | case1 s => cases h
  | case2 s => cases h
  | case3 e text s hescape =>
    rw [lexString, hescape] at h
    cases h
  | case4 e text s o hescape ih =>
    rw [lexString, hescape] at h
    obtain ⟨⟨out', s₁, rest₁⟩, hrest, heq⟩ := except_map_eq_ok h
    cases heq
    exact ih hrest
  | case5 text s hlast hescape =>
    rw [lexString.eq_4 _ _ _ _ hlast hescape, if_pos rfl] at h
    cases h
    rfl
  | case6 c text s hlast hescape hquote hend =>
    rw [lexString.eq_4 _ _ _ _ hlast hescape, if_neg hquote, if_pos hend] at h
    cases h
  | case7 c text s hlast hescape hquote hend ih =>
    rw [lexString.eq_4 _ _ _ _ hlast hescape, if_neg hquote, if_neg hend] at h
    obtain ⟨⟨out', s₁, rest₁⟩, hrest, heq⟩ := except_map_eq_ok h
    cases heq
    exact ih hrest

end Caster.Lex

namespace Caster.Driver

open TextPlaces
open Caster.Lex (LexState lexer lexStep Placed Moves moves_plain lexString_line blockComment_last
  lexRaw_last)
open Parse (Token)

/-! ### Import lines -/

/-- A line is taken for an import. -/
def isUse (line : Text) : Bool := "use ".toList.isPrefixOf (trimSpan line)

/-- The first line of a text. -/
def firstLine (text : Text) : Text := text.takeWhile (· ≠ '\n')

/-- A line without the carriage return of its end. -/
def chomp (line : Text) : Text := if line.getLast? = some '\r' then line.dropLast else line

/-- A line is taken out if it is taken for an import. -/
theorem bodyLine_eq_nil_iff (line : Text) : bodyLine line = [] ↔ isUse line = true := by
  unfold bodyLine parseUseLine isUse
  dsimp only
  cases huse : "use ".toList.isPrefixOf (trimSpan line) with
  | false => simp
  | true =>
    simp only [if_true, iff_true]
    split_ifs <;> rfl

/-- A line is an import if it starts with `use ` behind blanks and has something behind that. -/
theorem isUse_iff (line : Text) :
  isUse line = true ↔
    ∃ w, line.dropWhile isTab = "use ".toList ++ w ∧ ∃ c ∈ w, isBlank c = false
  := by
  have htrim : trimSpan line = (line.dropWhile isTab).rdropWhile isBlank := rfl
  unfold isUse
  rw [List.isPrefixOf_iff_prefix, htrim]
  set text := line.dropWhile isTab
  have hsplit := List.rdropWhile_append_rtakeWhile (p := isBlank) (l := text)
  constructor
  · rintro ⟨w, hw⟩
    refine ⟨w ++ text.rtakeWhile isBlank, by rw [← List.append_assoc, hw, hsplit], ?_⟩
    have hne : text.rdropWhile isBlank ≠ [] := by
      rw [← hw]
      simp
    have hlast := List.rdropWhile_last_not isBlank text hne
    have hwne : w ≠ [] := by
      rintro rfl
      simp only [← hw, List.append_nil] at hlast
      exact hlast rfl
    refine ⟨w.getLast hwne, by simp, ?_⟩
    simpa only [← hw, List.getLast_append_of_ne_nil _ hwne, Bool.not_eq_true] using hlast
  · rintro ⟨w, hw, c, hc, hblank⟩
    have hwne : w.rdropWhile isBlank ≠ [] := by
      intro hnil
      have := List.rdropWhile_eq_nil_iff.mp hnil c hc
      simp [hblank] at this
    have hback : text.rdropWhile isBlank = "use ".toList ++ w.rdropWhile isBlank := by
      have hrev : w.reverse.dropWhile isBlank ≠ [] := by simpa [List.rdropWhile] using hwne
      rw [hw]
      unfold List.rdropWhile
      rw [List.reverse_append, List.dropWhile_append, if_neg (by simpa using hrev)]
      simp
    rw [hback]
    exact List.prefix_append _ _

theorem dropWhile_append_of_ne_nil {text w : Text} (h : text.dropWhile isTab ≠ []) :
  (text ++ w).dropWhile isTab = text.dropWhile isTab ++ w
  := by
  rw [List.dropWhile_append, if_neg (by simpa using h)]

/-- More characters change nothing about an import line. -/
theorem isUse_append {line : Text} (h : isUse line = true) (w : Text) :
  isUse (line ++ w) = true
  := by
  obtain ⟨v, hv, c, hc, hblank⟩ := (isUse_iff line).mp h
  apply (isUse_iff _).mpr
  use v ++ w
  constructor
  · rw [dropWhile_append_of_ne_nil (by simp [hv]), hv, List.append_assoc]
  · exact ⟨c, by simp [hc], hblank⟩

/-- A start of an import line is one, too, if its last character is not one of its start. -/
theorem isUse_of_append {line w : Text} {e : Char} (h : isUse (line ++ w) = true)
    (hlast : line.getLast? = some e) (he : isBlank e = false) (huse : e ∉ "use ".toList) :
  isUse line = true
  := by
  obtain ⟨front, rfl⟩ : ∃ front, line = front ++ [e] := by
    exact List.getLast?_eq_some_iff.mp hlast
  obtain ⟨v, hv, -⟩ := (isUse_iff _).mp h
  have htab : isTab e = false := by
    simp only [isBlank, isTab, decide_eq_false_iff_not, List.mem_cons] at he ⊢
    tauto
  have hdrop : ∃ front', (front ++ [e]).dropWhile isTab = front' ++ [e] := by
    rw [List.dropWhile_append]
    split_ifs
    · use []
      simp [htab]
    · exact ⟨_, rfl⟩
  obtain ⟨front', hfront'⟩ := hdrop
  have hne : (front ++ [e]).dropWhile isTab ≠ [] := by
    rw [hfront']
    simp
  rw [dropWhile_append_of_ne_nil hne, hfront', List.append_assoc] at hv
  apply (isUse_iff _).mpr
  rw [hfront']
  rcases List.append_eq_append_iff.mp hv with ⟨a, huse', ha⟩ | ⟨a, rfl, ha⟩
  · cases a with
    | nil =>
      use [e]
      rw [List.append_nil] at huse'
      exact ⟨by rw [huse'], e, by simp, he⟩
    | cons d a =>
      obtain ⟨rfl, -⟩ := List.cons.inj ha
      exact absurd (by rw [huse']; simp) huse
  · use a ++ [e]
    exact ⟨by simp, e, by simp, he⟩

theorem isUse_chomp (line : Text) : isUse (chomp line) = isUse line := by
  unfold chomp
  split_ifs with hlast
  · obtain ⟨front, rfl⟩ := List.getLast?_eq_some_iff.mp hlast
    rw [List.dropLast_concat]
    have htrim : trimSpan (front ++ ['\r']) = trimSpan front := by
      have h : ∀ text, trimSpan text = (text.dropWhile isTab).rdropWhile isBlank := fun _ => rfl
      rw [h, h, List.dropWhile_append]
      split_ifs with hnil
      · rw [List.isEmpty_iff.mp hnil]
        rfl
      · exact List.rdropWhile_concat_pos _ _ _ rfl
    unfold isUse
    rw [htrim]
  · rfl

/-! ### Pieces of the lexer -/

/-- A text starts a piece that may go on behind the end of a line: a block comment or a raw
string. -/
def StartsLong (c : Char) (rest : Text) : Prop := c = backtick ∨ c = '/' ∧ rest.head? = some '*'

/-- Behind the end of a line only a block comment or a raw string goes on. -/
theorem lexStep_long {s s' : LexState} {c : Char} {rest rest' : Text} {o : Option Token}
    {front back : Text} (h : lexStep s c rest = .ok (o, s', rest'))
    (htext : c :: rest = (front ++ '\n' :: back) ++ rest') (hback : back ≠ []) :
  StartsLong c rest ∧ ∃ e, back.getLast? = some e ∧ (e = backtick ∨ e = '/')
  := by
  have hmoves : Moves (s, c :: rest) (s', rest') := (Lex.lexStep_advances h).to_reflTransGen
  have hplain : s'.line ≠ s.line := by
    intro hline
    obtain ⟨p, hp, hall⟩ := (moves_plain hmoves).2 hline
    obtain rfl : front ++ '\n' :: back = p := List.append_cancel_right (htext.symm.trans hp)
    have := hall '\n' (by simp)
    simp [isLineEnd] at this
  have hlast : ∀ {e : Char}, s'.before.head? = some e → back.getLast? = some e := by
    intro e he
    obtain ⟨p, -, hp, hbefore⟩ := (Lex.lexStep_advances h).text
    obtain rfl : front ++ '\n' :: back = p := List.append_cancel_right (htext.symm.trans hp)
    simp only at hbefore
    rw [hbefore, List.head?_append_of_ne_nil _ (by simp), List.head?_reverse,
      List.getLast?_append_of_ne_nil _ (List.cons_ne_nil _ _), List.getLast?_cons] at he
    rw [← he, List.getLast?_eq_getLast_of_ne_nil hback]
    rfl
  unfold lexStep at h
  split_ifs at h with hblank hend hline hblock hquote hraw hdigit hident hmark
  · cases h
    exact absurd rfl hplain
  · cases h
    exfalso
    obtain ⟨hsplit, hisEnd⟩ := Lex.splitLineEnd_spec hend rest
    have hp := List.append_cancel_right (htext.symm.trans hsplit)
    cases front with
    | nil =>
      rcases hisEnd with he | he | he
      · rw [he] at hp
        exact hback (List.cons.inj hp).2
      · rw [he] at hp
        cases hp
      · rw [he] at hp
        cases hp
    | cons d front =>
      have hlength := congrArg List.length hp
      have hpos := List.length_pos_of_ne_nil hback
      simp only [List.cons_append, List.length_cons, List.length_append] at hlength
      have hle : (Lex.splitLineEnd c rest).1.length ≤ 2 := by
        rcases hisEnd with he | he | he <;> simp [he]
      omega
  · cases h
    exact absurd rfl hplain
  · split at h
    · cases h
    · rename_i hcomment
      cases h
      have hslash := hlast (blockComment_last hcomment)
      exact ⟨.inr hblock, '/', hslash, .inr rfl⟩
  · split at h
    · cases h
    · rename_i hstring
      cases h
      exact absurd (lexString_line hstring) hplain
  · split at h
    · cases h
    · rename_i hrawString
      cases h
      have hmark := hlast (lexRaw_last hrawString)
      exact ⟨.inl hraw, backtick, hmark, .inl rfl⟩
  · split at h
    · cases h
    · rename_i hnumber
      cases h
      exfalso
      apply hplain
      simp only [Lex.lexNumber] at hnumber
      split_ifs at hnumber <;> cases hnumber <;> rfl
  · cases h
    exact absurd rfl hplain
  · cases h
    exact absurd rfl hplain
  · split at h
    · cases h
    · cases h
      exact absurd rfl hplain

/-! ### Use lines in the structure of the tokens -/

/-- The number of brackets that are open behind a token, given those open before it. -/
def bracketsAfter (depth : ℕ) (tok : Token) : ℕ :=
  match tok.kind with
  | .LPAREN | .LBRACKET | .LBRACE => depth + 1
  | .RPAREN | .RBRACKET | .RBRACE => depth - 1
  | _ => depth

/-- The number of brackets that are open behind some pieces of a text. -/
def openBrackets (pieces : List (Piece Char Token)) : ℕ :=
  (pieces.filterMap Piece.output).foldl bracketsAfter 0

/-- From its start on, the lexer reads some pieces of a text and comes to a state before the
rest. -/
abbrev Comes (src : Text) (pieces : List (Piece Char Token)) (s : LexState) (after : Text) : Prop :=
  lexer.ReadsTo LexState.start src pieces s after

/-- A line of a text behind some characters is an import for the lexer: it comes to the line at
its first column, when no bracket is open, and the line goes on to an end of a line. -/
def TopLevelUse (src before line : Text) : Prop :=
  ∃ pieces s after, src = before ++ (line ++ after) ∧ Comes src pieces s (line ++ after) ∧
    s.col = 1 ∧ openBrackets pieces = 0 ∧ (∀ c ∈ line, isLineEnd c = false) ∧
    (∀ c ∈ after.head?, isLineEnd c = true) ∧ isUse line = true

/-- A line of a text behind some characters is taken out by the expansion.  The carriage return
of its end does not belong to the line. -/
def Removed (src before line : Text) : Prop :=
  ∃ ls line' ls', lines src = ls ++ line' :: ls' ∧ before = ls.flatMap lineText ∧
    line = chomp line' ∧ bodyLine line' = []

/-- A text holds the end of a line, and an import line behind it. -/
def HoldsUse (text : Text) : Prop :=
  ∃ front back, text = front ++ '\n' :: back ∧ isUse (firstLine back) = true

/-- What is taken for an import lies in code: no comment or raw string and nothing behind a
character that is no code holds an import line, no bracket is open at an import line, no
carriage return is within an import line, and none is all that ends the line before a use
line of the lexer. -/
structure UsesInCode (src : Text) : Prop where
  long : ∀ {pieces s c rest o s' rest' p}, Comes src pieces s (c :: rest) →
    lexStep s c rest = .ok (o, s', rest') → c :: rest = p ++ rest' → StartsLong c rest →
      ¬ HoldsUse p
  stopped : ∀ {pieces s c rest e}, Comes src pieces s (c :: rest) → lexStep s c rest = .error e →
    ¬ HoldsUse (c :: rest)
  brackets : ∀ {pieces s after}, Comes src pieces s after → Whole (pieces.flatMap Piece.text) →
    isUse (firstLine after) = true → openBrackets pieces = 0
  plain : ∀ line ∈ lines src, isUse line = true → '\r' ∉ chomp line
  returns : ∀ {pieces s after}, Comes src pieces s after →
    (pieces.flatMap Piece.text).getLast? = some '\r' → openBrackets pieces = 0 →
    isUse (after.takeWhile fun c => !isLineEnd c) = false

/-! ### Lines of a text -/

theorem linesFrom_eq {n m : ℕ} {src : Text} (hn : src.length ≤ n) (hm : src.length ≤ m) :
  linesFrom n src = linesFrom m src
  := by
  induction n generalizing m src with
  | zero =>
    obtain rfl := List.length_eq_zero_iff.mp (Nat.le_zero.mp hn)
    cases m <;> rfl
  | succ n ih =>
    cases src with
    | nil => cases m <;> rfl
    | cons c rest =>
      cases m with
      | zero => simp at hm
      | succ m =>
        rw [List.length_cons] at hn hm
        have hshort : (((c :: rest).dropWhile (· ≠ '\n')).drop 1).length ≤ rest.length := by
          have := (List.dropWhile_sublist (l := c :: rest) (· ≠ '\n')).length_le
          rw [List.length_cons] at this
          rw [List.length_drop]
          omega
        simp only [linesFrom]
        congr 1
        apply ih
        · omega
        · omega

theorem lines_cons {c : Char} {rest : Text} :
  lines (c :: rest) =
    firstLine (c :: rest) :: lines (((c :: rest).dropWhile (· ≠ '\n')).drop 1)
  := by
  have hshort : (((c :: rest).dropWhile (· ≠ '\n')).drop 1).length ≤ rest.length := by
    have := (List.dropWhile_sublist (l := c :: rest) (· ≠ '\n')).length_le
    rw [List.length_cons] at this
    rw [List.length_drop]
    omega
  change _ :: linesFrom rest.length _ = _
  rw [linesFrom_eq hshort le_rfl]
  rfl

theorem lines_of_ne_nil {text : Text} (h : text ≠ []) :
  ∃ ls, lines text = firstLine text :: ls
  := by
  cases text with
  | nil => contradiction
  | cons c rest => exact ⟨_, lines_cons⟩

theorem plain_of_not_mem {line : Text} (h : '\n' ∉ line) :
  ∀ c ∈ line, decide (c ≠ '\n') = true
  := by
  intro c hc
  apply decide_eq_true
  rintro rfl
  exact h hc

theorem firstLine_append {line text : Text} (h : '\n' ∉ line) :
  firstLine (line ++ text) = line ++ firstLine text
  := List.takeWhile_append_of_pos (plain_of_not_mem h)

theorem lines_line {line : Text} (h : '\n' ∉ line) (text : Text) :
  lines (line ++ '\n' :: text) = line :: lines text
  := by
  have hcons : ∃ c rest, line ++ '\n' :: text = c :: rest := by cases line <;> simp
  obtain ⟨c, rest, hcr⟩ := hcons
  rw [hcr, lines_cons, ← hcr, firstLine_append h, List.dropWhile_append_of_pos (plain_of_not_mem h)]
  simp [firstLine]

/-- A text that is empty or ends with a line feed is its lines. -/
theorem lines_append {before : Text} (h : Whole before) (after : Text) :
  lines (before ++ after) = lines before ++ lines after ∧ (lines before).flatMap lineText = before
  := by
  induction hm : before.length using Nat.strong_induction_on generalizing before with
  | _ m ih =>
    subst hm
    by_cases hmem : '\n' ∈ before
    · obtain ⟨line, rest, rfl, hline⟩ := List.eq_append_cons_of_mem hmem
      have hrest : Whole rest := by
        cases rest with
        | nil => exact whole_nil
        | cons c rest =>
          unfold Whole at h ⊢
          rwa [List.getLast?_append_of_ne_nil _ (List.cons_ne_nil _ _),
            List.getLast?_cons_cons] at h
      have hless : rest.length < (line ++ '\n' :: rest).length := by
        rw [List.length_append, List.length_cons]
        omega
      obtain ⟨hlines, hflat⟩ := ih _ hless hrest rfl
      constructor
      · rw [List.append_assoc, List.cons_append, lines_line hline, lines_line hline, hlines]
        rfl
      · rw [lines_line hline, List.flatMap_cons, hflat, lineText, List.append_assoc]
        rfl
    · cases hlast : before.getLast? with
      | none =>
        obtain rfl := List.getLast?_eq_none_iff.mp hlast
        exact ⟨rfl, rfl⟩
      | some c =>
        have hc := h c hlast
        subst hc
        exact absurd (List.mem_of_getLast? hlast) hmem

theorem mem_lines_plain {src line : Text} (h : line ∈ lines src) : '\n' ∉ line := by
  induction hm : src.length using Nat.strong_induction_on generalizing src with
  | _ m ih =>
    subst hm
    cases src with
    | nil => cases h
    | cons c rest =>
      rw [lines_cons] at h
      rcases List.mem_cons.mp h with rfl | h
      · intro hmem
        simpa using List.mem_takeWhile_imp hmem
      · apply ih _ _ h rfl
        have := (List.dropWhile_sublist (l := c :: rest) (· ≠ '\n')).length_le
        rw [List.length_cons] at this ⊢
        rw [List.length_drop]
        omega

theorem dropWhile_line (text : Text) :
  text.dropWhile (· ≠ '\n') = [] ∨ ∃ rest, text.dropWhile (· ≠ '\n') = '\n' :: rest
  := by
  have hhead := List.head?_dropWhile_not (· ≠ '\n') text
  cases hdrop : text.dropWhile (· ≠ '\n') with
  | nil => exact .inl rfl
  | cons c rest =>
    right
    use rest
    simp only [hdrop, List.head?_cons, decide_eq_false_iff_not, not_not] at hhead
    rw [hhead]

/-- The text from a line on. -/
theorem text_of_lines {src line : Text} {ls ls' : List Text} (h : lines src = ls ++ line :: ls') :
  ∃ rest, src = ls.flatMap lineText ++ (line ++ rest) ∧ (rest = [] ∨ rest.head? = some '\n')
  := by
  induction ls generalizing src with
  | nil =>
    cases src with
    | nil => cases h
    | cons c rest =>
      rw [lines_cons] at h
      obtain ⟨rfl, -⟩ := List.cons.inj h
      refine ⟨(c :: rest).dropWhile (· ≠ '\n'), List.takeWhile_append_dropWhile.symm, ?_⟩
      rcases dropWhile_line (c :: rest) with hnil | ⟨behind, hcons⟩
      · exact .inl hnil
      · rw [hcons]
        exact .inr rfl
  | cons l ls ih =>
    cases src with
    | nil => cases h
    | cons c rest =>
      rw [lines_cons, List.cons_append] at h
      obtain ⟨rfl, hrest⟩ := List.cons.inj h
      obtain ⟨rest', hbehind, hend⟩ := ih hrest
      refine ⟨rest', ?_, hend⟩
      have hsplit := List.takeWhile_append_dropWhile (p := (· ≠ '\n')) (l := c :: rest)
      rcases dropWhile_line (c :: rest) with hnil | ⟨behind, hcons⟩
      · rw [hnil] at hrest
        cases ls <;> cases hrest
      · rw [hcons, List.drop_one, List.tail_cons] at hbehind
        rw [hcons, hbehind] at hsplit
        apply hsplit.symm.trans
        simp [lineText, firstLine]

/-! ### The invariants of the lexer -/

theorem comes_placed {src after : Text} {pieces : List (Piece Char Token)} {s : LexState}
    (h : Comes src pieces s after) :
  Placed s after ∧ s.before = (pieces.flatMap Piece.text).reverse
  := by
  have hgoes : ∀ {s s' : LexState} {text after : Text} {pieces : List (Piece Char Token)},
      lexer.ReadsTo s text pieces s' after → Placed s text →
        Placed s' after ∧ s'.before = (pieces.flatMap Piece.text).reverse ++ s.before := by
    intro s s' text after pieces h
    induction h with
    | refl s text => exact fun hs => ⟨hs, rfl⟩
    | @cons s c rest o s' rest' p pieces last text hstep htext hrest ih =>
      intro hs
      have hadvance := Lex.lexStep_advances hstep
      obtain ⟨q, -, hq, hbefore⟩ := hadvance.text
      obtain rfl : p = q := List.append_cancel_right (htext.symm.trans hq)
      obtain ⟨hplaced, hlast⟩ := ih (hadvance.placed hs)
      refine ⟨hplaced, ?_⟩
      simp only at hbefore
      rw [hlast, hbefore, List.flatMap_cons, List.reverse_append, List.append_assoc]
  obtain ⟨hplaced, hbefore⟩ := hgoes h (Lex.placed_start src)
  exact ⟨hplaced, by rw [hbefore]; exact List.append_nil _⟩

/-- The first column is behind the end of a line. -/
theorem comes_col_iff {src after : Text} {pieces : List (Piece Char Token)} {s : LexState}
    (h : Comes src pieces s after) :
  s.col = 1 ↔ ∀ c, (pieces.flatMap Piece.text).getLast? = some c → isLineEnd c = true
  := by
  obtain ⟨hplaced, hbefore⟩ := comes_placed h
  have hcol : s.col = 1 + (lastLine (pieces.flatMap Piece.text)).length := by
    have := congrArg Place.col hplaced.place
    rwa [hbefore, List.reverse_reverse] at this
  have hlast : (lastLine (pieces.flatMap Piece.text)).length = 0 ↔
      ∀ c, (pieces.flatMap Piece.text).getLast? = some c → isLineEnd c = true := by
    unfold lastLine
    rw [List.length_eq_zero_iff, List.rtakeWhile_eq_nil_iff]
    constructor
    · intro hall c hc
      have hne : pieces.flatMap Piece.text ≠ [] := by
        intro hnil
        simp [hnil] at hc
      rw [List.getLast?_eq_getLast_of_ne_nil hne] at hc
      obtain rfl := Option.some.inj hc
      simpa using hall hne
    · intro hall hne
      simpa using hall _ (List.getLast?_eq_getLast_of_ne_nil hne)
  rw [← hlast, hcol]
  omega

/-! ### Lines that are taken out -/

theorem ne_nil_of_isUse {line : Text} (h : isUse line = true) : line ≠ [] := by
  rintro rfl
  simp [isUse, trimSpan] at h

theorem whole_ends {before front : Text} (h : Whole before) (hne : front ≠ [])
    (hsuffix : front <:+ before) :
  ∃ f, front = f ++ ['\n']
  := by
  obtain ⟨b, rfl⟩ := hsuffix
  apply List.getLast?_eq_some_iff.mp
  rw [List.getLast?_eq_getLast_of_ne_nil hne]
  congr 1
  apply h
  rw [List.getLast?_append_of_ne_nil _ hne, List.getLast?_eq_getLast_of_ne_nil hne]

/-- The first line of a text goes on if the text does. -/
theorem exists_firstLine_append (text text' : Text) :
  ∃ w, firstLine (text ++ text') = firstLine text ++ w
  := by
  unfold firstLine
  rw [List.takeWhile_append]
  split_ifs with hall
  · have hwhole := List.takeWhile_prefix (l := text) (· ≠ '\n')
    rw [hwhole.eq_of_length hall]
    exact ⟨_, rfl⟩
  · exact ⟨[], by simp⟩

/-- A line of a text that is taken for an import is taken out. -/
theorem removed_of_whole {before text : Text} (h : Whole before)
    (huse : isUse (firstLine text) = true) :
  Removed (before ++ text) before (chomp (firstLine text))
  := by
  have hne : text ≠ [] := by
    rintro rfl
    exact ne_nil_of_isUse huse rfl
  obtain ⟨hlines, hflat⟩ := lines_append h text
  obtain ⟨ls, hls⟩ := lines_of_ne_nil hne
  refine ⟨lines before, firstLine text, ls, ?_, hflat.symm, rfl, ?_⟩
  · rw [hlines, hls]
  · exact (bodyLine_eq_nil_iff _).mpr huse

theorem Removed.whole {src before line : Text} (h : Removed src before line) : Whole before := by
  obtain ⟨ls, line', ls', -, rfl, -⟩ := h
  exact whole_flatMap fun line _ => whole_lineText line

/-- Behind a line, its carriage return and its line feed follow. -/
theorem chomp_append {line rest : Text} (hrest : rest = [] ∨ rest.head? = some '\n') :
  ∃ after, line ++ rest = chomp line ++ after ∧ ∀ c ∈ after.head?, isLineEnd c = true
  := by
  unfold chomp
  split_ifs with hlast
  · obtain ⟨front, rfl⟩ := List.getLast?_eq_some_iff.mp hlast
    use '\r' :: rest
    rw [List.dropLast_concat]
    constructor
    · simp
    · intro c hc
      obtain rfl := Option.some.inj hc
      rfl
  · use rest
    refine ⟨rfl, ?_⟩
    intro c hc
    rcases hrest with rfl | hhead
    · cases hc
    · rw [hhead] at hc
      obtain rfl := Option.some.inj hc
      rfl

theorem flatMap_of_comes {before after : Text} {pieces : List (Piece Char Token)} {s : LexState}
    (h : Comes (before ++ after) pieces s after) :
  pieces.flatMap Piece.text = before
  := (List.append_cancel_right h.text_eq).symm

/-- Where use lines lie in code, those that are taken out are imports for the lexer. -/
theorem UsesInCode.topLevelUse {src before line : Text} (hcode : UsesInCode src)
    (h : Removed src before line) :
  TopLevelUse src before line
  := by
  have hwhole := h.whole
  obtain ⟨ls, line', ls', hlines, rfl, rfl, hbody⟩ := h
  have huse := (bodyLine_eq_nil_iff line').mp hbody
  have hmem : line' ∈ lines src := by simp [hlines]
  have hplain := mem_lines_plain hmem
  obtain ⟨rest, hsrc, hrest⟩ := text_of_lines hlines
  have hfirst : firstLine (line' ++ rest) = line' := by
    rw [firstLine_append hplain]
    rcases hrest with rfl | hhead
    · simp [firstLine]
    · obtain ⟨rest', rfl⟩ := List.head?_eq_some_iff.mp hhead
      simp [firstLine]
  rcases lexer.readsTo_split LexState.start (ls.flatMap lineText) (line' ++ rest) with
    ⟨pieces, s, hcomes⟩ | ⟨pieces, s, c, rest₀, front, hcomes, htext, hne, hsuffix, hend⟩
  · have hpieces := flatMap_of_comes hcomes
    rw [← hsrc] at hcomes
    obtain ⟨after, hafter, hend⟩ := @chomp_append line' _ hrest
    refine ⟨pieces, s, after, ?_, ?_, ?_, ?_, ?_, hend, ?_⟩
    · rw [← hafter, ← hsrc]
    · rwa [← hafter]
    · apply (comes_col_iff hcomes).mpr
      intro c hc
      rw [hpieces] at hc
      rw [hwhole c hc]
      rfl
    · apply hcode.brackets hcomes
      · rwa [hpieces]
      · rwa [hfirst]
    · intro c hc
      have hreturn := hcode.plain line' hmem huse
      have hsub : c ∈ line' := by
        unfold chomp at hc
        split_ifs at hc
        · exact List.mem_of_mem_dropLast hc
        · exact hc
      simp only [isLineEnd, Bool.or_eq_false_iff, decide_eq_false_iff_not]
      constructor
      · rintro rfl
        exact hplain hsub
      · rintro rfl
        exact hreturn hc
    · rwa [isUse_chomp]
  · rw [← hsrc] at hcomes
    obtain ⟨f, rfl⟩ := whole_ends hwhole hne hsuffix
    exfalso
    rcases hend with ⟨e, herror⟩ | ⟨o, s', rest', back, hstep, hpiece, hback⟩
    · apply hcode.stopped hcomes herror
      exact ⟨f, line' ++ rest, by rw [htext]; simp, by rwa [hfirst]⟩
    · have hlong : c :: rest₀ = (f ++ '\n' :: back) ++ rest' := by rw [hpiece]; simp
      obtain ⟨hstarts, e, hlast, he⟩ := lexStep_long hstep hlong hback
      apply hcode.long hcomes hstep hlong hstarts
      refine ⟨f, back, rfl, ?_⟩
      have hsame : back ++ rest' = line' ++ rest := by
        rw [htext, List.append_assoc, List.append_assoc] at hpiece
        simpa using hpiece.symm
      rw [← hsame] at hfirst
      by_cases hmem' : '\n' ∈ back
      · obtain ⟨a, b, rfl, ha⟩ := List.eq_append_cons_of_mem hmem'
        rw [List.append_assoc, firstLine_append ha] at hfirst
        rw [firstLine_append ha]
        have ha' : a = line' := by simpa [firstLine] using hfirst
        simpa [firstLine, ha'] using huse
      · rw [firstLine_append hmem'] at hfirst
        have hback' : firstLine back = back := by
          have hnil := @firstLine_append back [] hmem'
          simpa [firstLine] using hnil
        rw [hback']
        rw [← hfirst] at huse
        apply isUse_of_append huse hlast
        · rcases he with rfl | rfl <;> decide
        · rcases he with rfl | rfl <;> decide

theorem firstLine_cases {after : Text} (h : ∀ c ∈ after.head?, isLineEnd c = true) :
  firstLine after = [] ∨ ∃ w, firstLine after = '\r' :: w
  := by
  cases after with
  | nil => exact .inl rfl
  | cons d after =>
    have hd := h d rfl
    simp only [isLineEnd, Bool.or_eq_true, decide_eq_true_eq] at hd
    rcases hd with rfl | rfl
    · left
      simp [firstLine]
    · right
      exact ⟨firstLine after, by simp [firstLine]⟩

/-- Where use lines lie in code, the imports of the lexer are taken out. -/
theorem UsesInCode.removed {src before line : Text} (hcode : UsesInCode src)
    (h : TopLevelUse src before line) :
  Removed src before line
  := by
  obtain ⟨pieces, s, after, rfl, hcomes, hcol, hdepth, hplain, hend, huse⟩ := h
  have hpieces := flatMap_of_comes hcomes
  have hwhole : Whole before := by
    intro c hc
    rw [← hpieces] at hc
    have hc' := (comes_col_iff hcomes).mp hcol c hc
    simp only [isLineEnd, Bool.or_eq_true, decide_eq_true_eq] at hc'
    rcases hc' with rfl | rfl
    · rfl
    · -- behind a carriage return alone no use line starts
      have hnone := hcode.returns hcomes hc hdepth
      have hline : (line ++ after).takeWhile (fun c => !isLineEnd c) = line := by
        rw [List.takeWhile_append_of_pos (by simpa using hplain)]
        cases after with
        | nil => simp
        | cons d after => simp [hend d rfl]
      rw [hline, huse] at hnone
      cases hnone
  have hfeed : '\n' ∉ line := by
    intro hmem
    have := hplain _ hmem
    simp [isLineEnd] at this
  have hfirst : firstLine (line ++ after) = line ++ firstLine after := firstLine_append hfeed
  have huse' : isUse (firstLine (line ++ after)) = true := by
    rw [hfirst]
    exact isUse_append huse _
  have hremoved := removed_of_whole hwhole huse'
  have hreturn : '\r' ∉ chomp (firstLine (line ++ after)) := by
    apply hcode.plain _ _ huse'
    obtain ⟨ls, hls⟩ := lines_of_ne_nil (ne_nil_of_isUse (isUse_append huse after))
    rw [(lines_append hwhole _).1, hls]
    simp
  have hlast : line.getLast? ≠ some '\r' := by
    intro hlast
    have := hplain _ (List.mem_of_getLast? hlast)
    simp [isLineEnd] at this
  have hchomp : chomp (firstLine (line ++ after)) = line := by
    rw [hfirst] at hreturn ⊢
    rcases firstLine_cases hend with hnil | ⟨w, hcons⟩
    · rw [hnil, List.append_nil, chomp, if_neg hlast]
    · rw [hcons] at hreturn ⊢
      rcases List.eq_nil_or_concat w with rfl | ⟨w', d, rfl⟩
      · simp [chomp]
      · exfalso
        apply hreturn
        have hsplit : line ++ '\r' :: w'.concat d = (line ++ '\r' :: w') ++ [d] := by simp
        rw [hsplit]
        unfold chomp
        split_ifs
        · rw [List.dropLast_concat]
          simp
        · simp
  rwa [hchomp] at hremoved

/-- The lexer comes to a line that is taken out if that is an import for the lexer. -/
theorem TopLevelUse.comes {before text line : Text} (h : TopLevelUse (before ++ text) before line) :
  ∃ pieces s, Comes (before ++ text) pieces s text ∧ openBrackets pieces = 0 ∧
    ∀ c ∈ line, isLineEnd c = false
  := by
  obtain ⟨pieces, s, after, hsrc, hcomes, -, hdepth, hplain, -⟩ := h
  obtain rfl := List.append_cancel_left hsrc
  exact ⟨pieces, s, hcomes, hdepth, hplain⟩

/-- Import lines are those of the tokens only if they lie in code. -/
theorem usesInCode_of_iff {src : Text}
    (h : ∀ before line, Removed src before line ↔ TopLevelUse src before line) :
  UsesInCode src
  := by
  -- the lexer comes to each line that is taken for an import
  have hheld : ∀ {pieces s front back rest}, Comes src pieces s ((front ++ '\n' :: back) ++ rest) →
      isUse (firstLine back) = true → ∃ pieces s, Comes src pieces s (back ++ rest) := by
    intro pieces s front back rest hcomes huse
    have hwhole : Whole ((pieces.flatMap Piece.text ++ front) ++ ['\n']) := whole_line _
    have hsrc : src = ((pieces.flatMap Piece.text ++ front) ++ ['\n']) ++ (back ++ rest) := by
      rw [hcomes.text_eq]
      simp
    obtain ⟨w, hw⟩ := exists_firstLine_append back rest
    have huse' : isUse (firstLine (back ++ rest)) = true := by
      rw [hw]
      exact isUse_append huse w
    have hremoved := removed_of_whole hwhole huse'
    rw [← hsrc] at hremoved
    have htop := (h _ _).mp hremoved
    rw [hsrc] at htop ⊢
    obtain ⟨pieces', s', hcomes', -⟩ := htop.comes
    exact ⟨pieces', s', hcomes'⟩
  constructor
  · rintro pieces s c rest o s' rest' p hcomes hstep htext hlong ⟨front, back, rfl, huse⟩
    have hback : back ≠ [] := by
      rintro rfl
      exact ne_nil_of_isUse huse rfl
    have hpos := List.length_pos_of_ne_nil hback
    have hlength := congrArg List.length htext
    rw [htext] at hcomes
    obtain ⟨pieces', s₂, hcomes'⟩ := hheld hcomes huse
    rw [← htext] at hcomes
    have hwithin := hcomes.not_within hstep hcomes'
    simp only [List.length_append, List.length_cons] at hlength hwithin
    omega
  · rintro pieces s c rest e hcomes herror ⟨front, back, htext, huse⟩
    have hlength := congrArg List.length htext
    rw [htext, ← List.append_nil (front ++ '\n' :: back)] at hcomes
    obtain ⟨pieces', s₂, hcomes'⟩ := hheld hcomes huse
    rw [List.append_nil, ← htext] at hcomes
    have hbehind := hcomes.not_behind herror hcomes'
    simp only [List.append_nil, List.length_append, List.length_cons] at hlength hbehind
    omega
  · intro pieces s after hcomes hwhole huse
    have hremoved := removed_of_whole hwhole huse
    rw [← hcomes.text_eq] at hremoved
    have htop := (h _ _).mp hremoved
    rw [hcomes.text_eq] at htop
    obtain ⟨pieces', s', hcomes', hdepth, -⟩ := htop.comes
    rw [← hcomes.text_eq] at hcomes'
    rw [(hcomes.unique hcomes').1, hdepth]
  · intro line hmem huse hreturn
    obtain ⟨ls, ls', hlines⟩ := List.append_of_mem hmem
    have hremoved : Removed src (ls.flatMap lineText) (chomp line) :=
      ⟨ls, line, ls', hlines, rfl, rfl, (bodyLine_eq_nil_iff line).mpr huse⟩
    obtain ⟨-, -, -, -, -, -, -, hplain, -⟩ := (h _ _).mp hremoved
    have := hplain _ hreturn
    simp [isLineEnd] at this
  · intro pieces s after hcomes hlast hdepth
    by_contra huse
    rw [Bool.not_eq_false] at huse
    have hsplit := List.takeWhile_append_dropWhile (p := fun c => !isLineEnd c) (l := after)
    have htop : TopLevelUse src (pieces.flatMap Piece.text)
        (after.takeWhile fun c => !isLineEnd c) := by
      refine ⟨pieces, s, after.dropWhile fun c => !isLineEnd c, ?_, ?_, ?_, hdepth, ?_, ?_, huse⟩
      · rw [hsplit]
        exact hcomes.text_eq
      · rwa [hsplit]
      · apply (comes_col_iff hcomes).mpr
        intro c hc
        rw [hlast] at hc
        obtain rfl := Option.some.inj hc
        rfl
      · intro c hc
        simpa using List.mem_takeWhile_imp hc
      · intro c hc
        have hhead := List.head?_dropWhile_not (fun c => !isLineEnd c) after
        rw [Option.mem_def.mp hc] at hhead
        simpa using hhead
    have hfeed := ((h _ _).mpr htop).whole _ hlast
    cases hfeed

/-- The lines of a file that are taken out are the imports of its tokens if and only if they lie
in code.  The other lines reach the lexer as they are, but for the rewriting of the module. -/
theorem removed_iff_topLevelUse (src : Text) :
  ((∀ before line, Removed src before line ↔ TopLevelUse src before line) ↔ UsesInCode src) ∧
    ∀ (fs : FileSystem) (n : ℕ) (loading loaded loaded' : List Path) (rawPath : Path)
      (rewriteAsModule : Bool) (text : Text), fs.read (fs.canonical rawPath) = some src →
      fs.canonical rawPath ∉ loaded →
      expandImportsFrom fs n loading rawPath rewriteAsModule loaded = .ok (text, loaded') →
      ∃ imports, text = joinImports imports
        (rewriteModule (fs.canonical rawPath) ((lines src).flatMap bodyLine) rewriteAsModule)
  := by
  constructor
  · constructor
    · exact usesInCode_of_iff
    · intro hcode before line
      exact ⟨hcode.topLevelUse, hcode.removed⟩
  · intro fs n loading loaded loaded' rawPath rewriteAsModule text hread hmem h
    rcases expandImportsFrom_ends n loading h with
      ⟨hdone, -⟩ | ⟨-, src', state, hread', -, htext, -⟩
    · exact absurd hdone hmem
    · obtain rfl : src = src' := Option.some.inj (hread.symm.trans hread')
      use state.imports
      exact htext

/-- The line of a block comment is taken out. -/
theorem not_removed_iff_topLevelUse :
  ¬ ∀ (src before line : Text), Removed src before line ↔ TopLevelUse src before line
  := by
  intro h
  have hremoved : Removed "/*\nuse /a\n*/\n".toList "/*\n".toList "use /a".toList :=
    ⟨["/*".toList], "use /a".toList, ["*/".toList], rfl, rfl, rfl, rfl⟩
  have htop := (h _ _ _).mp hremoved
  have hsplit : "/*\nuse /a\n*/\n".toList = "/*\n".toList ++ "use /a\n*/\n".toList := rfl
  rw [hsplit] at htop
  obtain ⟨pieces, s, hcomes, -⟩ := htop.comes
  rw [← hsplit] at hcomes
  obtain ⟨s', hstep⟩ : ∃ s', lexStep LexState.start '/' "*\nuse /a\n*/\n".toList =
      .ok (none, s', ['\n']) := ⟨_, rfl⟩
  have hstart : Comes "/*\nuse /a\n*/\n".toList [] LexState.start
      ('/' :: "*\nuse /a\n*/\n".toList) := .refl _ _
  have hwithin := hstart.not_within hstep hcomes
  revert hwithin
  decide

end Caster.Driver
