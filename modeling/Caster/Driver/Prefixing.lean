import Caster.Driver.Modules
import Caster.Library.Insertions
import Mathlib.Data.List.TakeWhile

/-!
# Where names are prefixed

The rewriting of a module puts its prefix before some identifiers, and nothing else changes.
-/

namespace Caster.Driver

open Insertions

/-- The numbers of characters before the identifiers that are prefixed. -/
def prefixedPlaces (shouldPrefix : Text → Text → Text → Bool) : List Part → List ℕ
  | [] => []
  | .ident before name after :: rest =>
    if shouldPrefix before name after then before.length :: prefixedPlaces shouldPrefix rest
    else prefixedPlaces shouldPrefix rest
  | .chars _ _ :: rest => prefixedPlaces shouldPrefix rest

/-- The places of the identifiers of a module that are prefixed. -/
def localPrefixedPlaces (src pre : Text) : List ℕ :=
  prefixedPlaces (shouldPrefixLocalIdent (collectLocalModuleExportNames src) pre) (parts src)

variable {shouldPrefix : Text → Text → Text → Bool}

/-- An identifier of a text and what is around it. -/
structure IdentAt (shouldPrefix : Text → Text → Text → Bool) (before name after : Text) : Prop where
  prefixed : shouldPrefix before name after = true
  starts : name.head?.any isIdentStart = true
  chars : ∀ c ∈ name, isIdentChar c = true
  stops : after.head?.any isIdentChar = false
  digits : ∀ c ∈ before.takeWhile isIdentChar, c.isDigit = true

/-- Only digits of a number may be right before an identifier. -/
def BehindDigits (mode : Mode) (before src : Text) : Prop :=
  mode = .code → src.head?.any isIdentChar = true →
    ∀ c ∈ before.takeWhile isIdentChar, c.isDigit = true

theorem takeWhile_identChar_of_not {c : Char} (hc : isIdentChar c = false) (before : Text) :
  (c :: before).takeWhile isIdentChar = []
  := by
  apply List.takeWhile_cons_of_neg
  simp [hc]

theorem isDigit_of_isIdentChar {c : Char} (hchar : isIdentChar c = true)
    (hstart : isIdentStart c = false) :
  c.isDigit = true
  := by
  simp only [isIdentStart, Bool.or_eq_false_iff] at hstart
  simpa [isIdentChar, Char.isAlphanum, hstart.1, hstart.2] using hchar

/-- Code goes on behind a character of code or behind the end of a comment or a string. -/
theorem passed_code {mode : Mode} {c : Char} {rest : Text}
    (h : (passed mode (c :: rest)).2 = .code) :
  mode = .code ∧ (passed mode (c :: rest)).1 = 1 ∨
    ∃ d text, ((c :: rest).take (passed mode (c :: rest)).1).reverse = d :: text ∧
      isIdentChar d = false
  := by
  cases mode with
  | code =>
    left
    refine ⟨rfl, ?_⟩
    revert h
    unfold passed
    split <;> simp_all
  | lineComment =>
    right
    have hline : c = '\n' ∨ c = '\r' := by
      by_contra hline
      simp [passed, hline] at h
    refine ⟨c, [], rfl, ?_⟩
    rcases hline with rfl | rfl <;> rfl
  | blockComment =>
    right
    unfold passed at h ⊢
    split at h <;> simp_all
    decide
  | string =>
    right
    unfold passed at h ⊢
    split at h <;> simp_all
    decide
  | raw =>
    right
    have hmark : c = backtick := by
      by_contra hmark
      simp [passed, hmark] at h
    subst hmark
    exact ⟨backtick, [], rfl, rfl⟩

theorem behindDigits_passed {mode : Mode} {before : Text} {c : Char} {rest : Text}
    (hident : ¬(mode = .code ∧ isIdentStart c = true)) (h : BehindDigits mode before (c :: rest)) :
  BehindDigits (passed mode (c :: rest)).2
    (((c :: rest).take (passed mode (c :: rest)).1).reverse ++ before)
    ((c :: rest).drop (passed mode (c :: rest)).1)
  := by
  intro hcode _
  rcases passed_code hcode with ⟨rfl, hcount⟩ | ⟨d, text, htext, hd⟩
  · rw [hcount]
    change ∀ d ∈ (c :: before).takeWhile isIdentChar, d.isDigit = true
    cases hc : isIdentChar c with
    | false =>
      rw [takeWhile_identChar_of_not hc]
      simp
    | true =>
      have hstart : isIdentStart c = false := by simpa using hident
      intro d hd
      rw [List.takeWhile_cons_of_pos hc] at hd
      rcases List.mem_cons.mp hd with rfl | hd
      · exact isDigit_of_isIdentChar hc hstart
      · exact h rfl hc d hd
  · rw [htext, List.cons_append, takeWhile_identChar_of_not hd]
    simp

theorem head_dropWhile_identChar (text : Text) :
  (text.dropWhile isIdentChar).head?.any isIdentChar = false
  := by
  obtain ⟨w, rest, rfl, hw, hrest⟩ := exists_word isIdentChar text
  rw [List.dropWhile_append_of_pos hw]
  cases rest with
  | nil => rfl
  | cons c rest => rwa [List.dropWhile_cons_of_neg (by simpa using hrest)]

/-- A place that is prefixed is that of an identifier. -/
theorem identAt_of_mem {n i : ℕ} {mode : Mode} {before src : Text}
    (hdigits : BehindDigits mode before src)
    (h : i ∈ prefixedPlaces shouldPrefix (partsFrom n mode before src)) :
  ∃ front name after, src = front ++ (name ++ after) ∧ i = before.length + front.length ∧
    IdentAt shouldPrefix (front.reverse ++ before) name after
  := by
  induction n generalizing mode before src with
  | zero => cases h
  | succ n ih =>
    cases src with
    | nil => cases h
    | cons c rest =>
      -- what is found behind a part is found behind the text of the part and what was before
      have hbehind : ∀ {p after' : Text} {mode' : Mode}, c :: rest = p ++ after' →
          BehindDigits mode' (p.reverse ++ before) after' →
          i ∈ prefixedPlaces shouldPrefix (partsFrom n mode' (p.reverse ++ before) after') →
          ∃ front name after, c :: rest = front ++ (name ++ after) ∧
            i = before.length + front.length ∧
            IdentAt shouldPrefix (front.reverse ++ before) name after := by
        intro p after' mode' hsrc hdigits' hmem
        obtain ⟨front, name, after, rfl, hi, hident⟩ := ih hdigits' hmem
        refine ⟨p ++ front, name, after, by rw [hsrc, List.append_assoc], ?_, ?_⟩
        · rw [hi, List.length_append, List.length_append, List.length_reverse]
          omega
        · rwa [List.reverse_append, List.append_assoc]
      unfold partsFrom at h
      split_ifs at h with hident
      · obtain ⟨rfl, hstart⟩ := hident
        have hsplit := (List.takeWhile_append_dropWhile (p := isIdentChar) (l := c :: rest)).symm
        have hstop := head_dropWhile_identChar (c :: rest)
        have hchar := isIdentChar_of_isIdentStart hstart
        have hafter : i ∈ prefixedPlaces shouldPrefix (partsFrom n .code
            (((c :: rest).takeWhile isIdentChar).reverse ++ before)
            ((c :: rest).dropWhile isIdentChar)) →
            ∃ front name after, c :: rest = front ++ (name ++ after) ∧
              i = before.length + front.length ∧
              IdentAt shouldPrefix (front.reverse ++ before) name after := by
          apply hbehind hsplit
          intro _ hhead
          rw [hstop] at hhead
          cases hhead
        simp only [prefixedPlaces] at h
        split_ifs at h with hshould
        · rcases List.mem_cons.mp h with rfl | h
          · refine ⟨[], _, _, hsplit, rfl, ⟨hshould, ?_, ?_, hstop, hdigits rfl hchar⟩⟩
            · rw [List.takeWhile_cons_of_pos hchar, List.head?_cons, Option.any_some, hstart]
            · exact fun d hd => List.mem_takeWhile_imp hd
          · exact hafter h
        · exact hafter h
      · exact hbehind (List.take_append_drop _ _).symm (behindDigits_passed hident hdigits) h

/-- The rewritten parts of a text are the text with what was put before its identifiers. -/
theorem flatMap_rewritePart {n : ℕ} {mode : Mode} {before src pre : Text} (hn : src.length ≤ n)
    (hdigits : BehindDigits mode before src) :
  (partsFrom n mode before src).flatMap (rewritePart shouldPrefix pre) =
    insertFrom (fun i => i ∈ prefixedPlaces shouldPrefix (partsFrom n mode before src)) pre
      before.length src
  := by
  induction n generalizing mode before src with
  | zero => rw [List.length_eq_zero_iff.mp (Nat.le_zero.mp hn)]; rfl
  | succ n ih =>
    cases src with
    | nil => rfl
    | cons c rest =>
      rw [List.length_cons] at hn
      -- the places behind a part that is read are behind its characters
      have hlater : ∀ {p after : Text} {mode' : Mode}, BehindDigits mode' (p.reverse ++ before) after →
          ∀ j, j < before.length + p.length →
          j ∉ prefixedPlaces shouldPrefix (partsFrom n mode' (p.reverse ++ before) after) := by
        intro p after mode' hdigits' j hj hmem
        obtain ⟨front, -, -, -, rfl, -⟩ := identAt_of_mem hdigits' hmem
        rw [List.length_append, List.length_reverse] at hj
        omega
      have hbehind : ∀ {p after : Text} {mode' : Mode} {places : List ℕ}, p ≠ [] →
          c :: rest = p ++ after → BehindDigits mode' (p.reverse ++ before) after →
          (∀ j, before.length < j → (j ∈ places ↔
            j ∈ prefixedPlaces shouldPrefix (partsFrom n mode' (p.reverse ++ before) after))) →
          insertFrom (fun i => i ∈ places) pre before.length (c :: rest) =
            (if before.length ∈ places then pre else []) ++ p ++
              (partsFrom n mode' (p.reverse ++ before) after).flatMap (rewritePart shouldPrefix pre) := by
        intro p after mode' places hp hsrc hdigits' hplaces
        have hlength := congrArg List.length hsrc
        rw [List.length_cons, List.length_append] at hlength
        have hpos := List.length_pos_of_ne_nil hp
        rw [ih (by omega) hdigits', hsrc, insertFrom_append, List.length_append, List.length_reverse,
          Nat.add_comm p.length]
        congr 1
        · by_cases hmark : before.length ∈ places
          · rw [if_pos hmark]
            apply insertFrom_first hp (by simpa using hmark)
            intro j hj hlt
            simpa [hplaces j hj] using hlater hdigits' j hlt
          · rw [if_neg hmark, List.nil_append]
            apply insertFrom_clear
            intro j hj hlt
            rcases Nat.eq_or_lt_of_le hj with rfl | hj
            · simpa using hmark
            · simpa [hplaces j hj] using hlater hdigits' j hlt
        · apply insertFrom_congr
          intro j hj _
          simp [hplaces j (by omega)]
      unfold partsFrom
      split_ifs with hident
      · obtain ⟨rfl, hstart⟩ := hident
        have hsplit := (List.takeWhile_append_dropWhile (p := isIdentChar) (l := c :: rest)).symm
        have hchar := isIdentChar_of_isIdentStart hstart
        have hne : (c :: rest).takeWhile isIdentChar ≠ [] := by
          rw [List.takeWhile_cons_of_pos hchar]
          simp
        have hdigits' : BehindDigits .code (((c :: rest).takeWhile isIdentChar).reverse ++ before)
            ((c :: rest).dropWhile isIdentChar) := by
          intro _ hhead
          rw [head_dropWhile_identChar] at hhead
          cases hhead
        have hwithout := hlater hdigits' before.length (by
          have := List.length_pos_of_ne_nil hne
          omega)
        simp only [List.flatMap_cons, rewritePart, prefixedPlaces]
        by_cases hshould : shouldPrefix before ((c :: rest).takeWhile isIdentChar)
            ((c :: rest).dropWhile isIdentChar) = true
        · simp only [if_pos hshould]
          have hread := hbehind hne hsplit hdigits' fun j hj => by
            rw [List.mem_cons, or_iff_right (show j ≠ before.length by omega)]
          rw [if_pos (by simp)] at hread
          exact hread.symm
        · simp only [if_neg hshould]
          have hread := hbehind hne hsplit hdigits' fun j hj => Iff.rfl
          rw [if_neg hwithout, List.nil_append] at hread
          exact hread.symm
      · have hpos := passed_pos mode (c :: rest)
        have hne : (c :: rest).take (passed mode (c :: rest)).1 ≠ [] := by
          rw [Ne, List.take_eq_nil_iff]
          simp [Nat.pos_iff_ne_zero.mp hpos]
        have hdigits' := behindDigits_passed hident hdigits
        have hwithout := hlater hdigits' before.length (by
          have := List.length_pos_of_ne_nil hne
          omega)
        simp only [List.flatMap_cons, rewritePart, prefixedPlaces]
        have hread := hbehind hne (List.take_append_drop _ _).symm hdigits' fun j hj => Iff.rfl
        rw [if_neg hwithout, List.nil_append] at hread
        exact hread.symm

theorem localPrefixedPlaces_nil {src pre : Text} (h : collectLocalModuleExportNames src = []) :
  localPrefixedPlaces src pre = []
  := by
  unfold localPrefixedPlaces
  rw [h]
  generalize parts src = ps
  induction ps with
  | nil => rfl
  | cons part ps ih =>
    cases part with
    | ident before name after => simpa [prefixedPlaces, shouldPrefixLocalIdent] using ih
    | chars mode text => exact ih

theorem behindDigits_start (src : Text) : BehindDigits .code [] src := by
  intro _ _
  simp

/-- The text of a module is rewritten by what is put before its identifiers. -/
theorem rewriteLocalModuleSource_eq (src pre : Text) :
  rewriteLocalModuleSource src pre =
    insertFrom (fun i => i ∈ localPrefixedPlaces src pre) pre 0 src
  := by
  unfold rewriteLocalModuleSource
  dsimp only
  split_ifs with hnames
  · rw [localPrefixedPlaces_nil hnames]
    exact (insertFrom_unmarked 0 src).symm
  · exact flatMap_rewritePart le_rfl (behindDigits_start src)

/-- A name that is prefixed is a whole word of a text, and an exported one. -/
theorem identAt_localPrefixedPlaces {src pre : Text} {i : ℕ} (h : i ∈ localPrefixedPlaces src pre) :
  ∃ front name after, src = front ++ (name ++ after) ∧ i = front.length ∧
    IdentAt (shouldPrefixLocalIdent (collectLocalModuleExportNames src) pre) front.reverse name after
  := by
  obtain ⟨front, name, after, hsrc, hi, hident⟩ := identAt_of_mem (behindDigits_start src) h
  refine ⟨front, name, after, hsrc, ?_, ?_⟩
  · simpa using hi
  · simpa using hident

theorem mem_exports_of_identAt {src pre before name after : Text}
    (h : IdentAt (shouldPrefixLocalIdent (collectLocalModuleExportNames src) pre) before name after) :
  name ∈ collectLocalModuleExportNames src
  := by
  have hprefixed := h.prefixed
  simp only [shouldPrefixLocalIdent, Bool.and_eq_true, decide_eq_true_eq] at hprefixed
  exact hprefixed.1.1.1

theorem atStarts_localPrefixedPlaces (src pre : Text) :
  AtStarts isIdentStart src fun i => i ∈ localPrefixedPlaces src pre
  := by
  intro front rest hsrc hmark
  obtain ⟨front', name, after, hsrc', hlength, hident⟩ :=
    identAt_localPrefixedPlaces (of_decide_eq_true hmark)
  obtain ⟨-, rfl⟩ := List.append_inj (hsrc.symm.trans hsrc') hlength
  have hstarts := hident.starts
  cases name with
  | nil => cases hstarts
  | cons c name => exact hstarts

/-- Behind a letter of a word, an identifier does not start. -/
theorem oncePerWord_localPrefixedPlaces (src pre : Text) :
  OncePerWord isIdentStart isIdentChar src fun i => i ∈ localPrefixedPlaces src pre
  := by
  intro front w rest hsrc hhead hw
  by_contra hmark
  rw [Bool.not_eq_false, decide_eq_true_eq] at hmark
  obtain ⟨front', name, after, hsrc', hlength, hident⟩ := identAt_localPrefixedPlaces hmark
  rw [← List.length_append] at hlength
  obtain ⟨rfl, -⟩ := List.append_inj (hsrc.symm.trans hsrc') hlength
  cases w with
  | nil => cases hhead
  | cons c w =>
    have hall : ∀ d ∈ (c :: w).reverse, isIdentChar d = true := by
      intro d hd
      exact hw d (List.mem_reverse.mp hd)
    have hdigit := hident.digits c
    rw [List.reverse_append, List.takeWhile_append_of_pos hall] at hdigit
    have hstart : isIdentStart c = true := hhead
    rw [isDigit_of_isIdentStart hstart] at hdigit
    have hfalse := hdigit (by simp)
    cases hfalse

end Caster.Driver
