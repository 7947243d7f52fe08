import Caster.Adapters.PathAgreement

/-!
# The runtimes of both compilers

A call of a function that both runtimes have, and when it has the same value in both.
-/

namespace Caster.Sys

open Driver (Text Path)
open UnixPath

/-- A call of a function of both runtimes. -/
inductive Call where
  | upper (text : Text)
  | lower (text : Text)
  | charAt (text : Text) (index : ℤ)
  | concat (left right : Text)
  | eq (left right : Text)
  | castInt (value : ℤ)
  | chars (text : Text)
  | isDigit (text : Text)
  | isAlpha (text : Text)
  | isSpace (text : Text)
  | join (parts : List Path)
  | parent (path : Path)
  | name (path : Path)
  | normalize (path : Path)

/-- The value of a call. -/
inductive Answer where
  | str (text : Text)
  | bol (b : Bool)
  | arr (texts : List Text)
  deriving DecidableEq

namespace Call

/-- What the C compiler's runtime answers, or nothing where the program stops. -/
def answer : Call → Option Answer
  | upper text => some (.str (flxStrUpper text))
  | lower text => some (.str (flxStrLower text))
  | charAt text index => (flxStrCharAt text index).map .str
  | concat left right => some (.str (flxStrConcat left right))
  | eq left right => some (.bol (flxStrEq left right))
  | castInt value => some (.str (flxCastIntToStr value))
  | chars text => some (.arr (flxStrChars text))
  | isDigit text => some (.bol (flxStrAllDigit text))
  | isAlpha text => some (.bol (flxStrAllAlpha text))
  | isSpace text => some (.bol (flxStrAllSpace text))
  | join parts => some (.str (pathJoin parts))
  | parent path => some (.str (pathParent path))
  | name path => some (.str (pathName path))
  | normalize path => some (.str (pathNormalize path))

/-- What the self-hosted compiler's runtime answers. -/
def selfHostedAnswer : Call → Option Answer
  | upper text => some (.str (SelfHosted.upper text))
  | lower text => some (.str (SelfHosted.lower text))
  | charAt text index => some (.str (SelfHosted.flxStrAt text index))
  | concat left right => some (.str (SelfHosted.flxStrConcat left right))
  | eq left right => some (.bol (SelfHosted.flxStrEq left right))
  | castInt value => some (.str (SelfHosted.flxStrFromInt value))
  | chars text => some (.arr (SelfHosted.flxStrChars text))
  | isDigit text => some (.bol (SelfHosted.isDigit text))
  | isAlpha text => some (.bol (SelfHosted.isAlpha text))
  | isSpace text => some (.bol (SelfHosted.isSpace text))
  | join parts => some (.str (SelfHosted.pathJoin parts))
  | parent path => some (.str (SelfHosted.pathParent path))
  | name path => some (.str (SelfHosted.pathName path))
  | normalize path => some (.str (SelfHosted.pathNormalize path))

/-- A path without NUL, a drive or backslashes. -/
def IsUnix (path : Path) : Prop := Char.ofNat 0 ∉ path ∧ '\\' ∉ path ∧ pathDrive path = []

/-- A call within bounds, on one character, or on paths of a Unix system. -/
def Valid : Call → Prop
  | charAt text index => 0 ≤ index ∧ index < text.length
  | isDigit text | isAlpha text | isSpace text => text.length = 1
  | join parts => ∀ part ∈ parts, IsUnix part
  | parent path | name path | normalize path => IsUnix path
  | _ => True

/-- A call to which both runtimes answer the same. -/
def Agrees : Call → Prop
  | upper text | lower text => text.length ≤ 1
  | isSpace text => text ≠ [Char.ofNat 11] ∧ text ≠ [Char.ofNat 12]
  | join parts => Joinable parts
  | parent path => ParentApart (split path).dropLast ((split path).getLastD [])
  | name path => NameApart (isAbsolute path) (split path).dropLast ((split path).getLastD [])
  | normalize path => SinglePass path
  | _ => True

end Call

/-! ### Strings -/

/-- The letters of the C locale have the letters of the other case at one distance. -/
theorem shift_upper (c : Char) : SelfHosted.shift 'a' 'z' (-32) c = c.toUpper := by
  unfold SelfHosted.shift
  split_ifs with h
  · obtain ⟨n, hn⟩ : ∃ n, n = c.toNat := ⟨_, rfl⟩
    have hc : c = Char.ofNat n := by rw [hn, Char.ofNat_toNat]
    have hlow : 97 ≤ n := hn ▸ h.1
    have hhigh : n ≤ 122 := hn ▸ h.2
    rw [hc]
    interval_cases n <;> rfl
  · have hother : ¬ ('a'.val ≤ c.val ∧ c.val ≤ 'z'.val) := h
    delta Char.toUpper
    rw [dif_neg hother]

theorem shift_lower (c : Char) : SelfHosted.shift 'A' 'Z' 32 c = c.toLower := by
  unfold SelfHosted.shift
  split_ifs with h
  · obtain ⟨n, hn⟩ : ∃ n, n = c.toNat := ⟨_, rfl⟩
    have hc : c = Char.ofNat n := by rw [hn, Char.ofNat_toNat]
    have hlow : 65 ≤ n := hn ▸ h.1
    have hhigh : n ≤ 90 := hn ▸ h.2
    rw [hc]
    interval_cases n <;> rfl
  · have hother : ¬ (c.val ≥ 'A'.val ∧ c.val ≤ 'Z'.val) := h
    delta Char.toLower
    rw [dif_neg hother]

/-- Only the first character is changed, and the others are lost. -/
theorem map_eq_first_iff {change : Char → Char} {first : Text → Text} (hnil : first [] = [])
    (hcons : ∀ c text, first (c :: text) = [change c]) (text : Text) :
  text.map change = first text ↔ text.length ≤ 1
  := by
  cases text with
  | nil => simp [hnil]
  | cons c text => simp [hcons, List.length_eq_zero_iff]

theorem flxStrAt_agree {text : Text} {index : ℤ} (hlow : 0 ≤ index) (hhigh : index < text.length) :
  flxStrCharAt text index = some (SelfHosted.flxStrAt text index)
  := by
  have hlt : index.toNat < text.length := by omega
  rw [flxStrCharAt, SelfHosted.flxStrAt, if_neg (by omega), if_neg (by omega),
    List.getElem?_eq_getElem hlt, List.drop_eq_getElem_cons hlt]
  rfl

theorem flxStrEq_eq (left right : Text) : flxStrEq left right = decide (left = right) := by
  unfold flxStrEq
  split_ifs with hlength
  · exact (decide_eq_false fun heq : left = right => hlength (congrArg List.length heq)).symm
  · rw [not_not] at hlength
    induction left generalizing right with
    | nil =>
      rw [List.length_eq_zero_iff.mp hlength.symm]
      rfl
    | cons c left ih =>
      obtain ⟨d, right, rfl⟩ := List.exists_cons_of_length_eq_add_one hlength.symm
      rw [List.zip_cons_cons, List.all_cons, ih _ (Nat.succ.inj hlength)]
      simp

theorem selfHosted_flxStrEq (left right : Text) : SelfHosted.flxStrEq left right = decide (left = right) := by
  unfold SelfHosted.flxStrEq
  by_cases hlength : left.length = right.length
  · rw [hlength, List.take_length, ← hlength, List.take_length]
    simp [hlength]
  · rw [decide_eq_false hlength, Bool.false_and]
    exact (decide_eq_false fun heq : left = right => hlength (congrArg List.length heq)).symm

/-- On one character it does not matter that all are asked for their kind. -/
theorem flxStrAll_singleton (kind : Char → Bool) (c : Char) : flxStrAll kind [c] = kind c := by
  simp [flxStrAll]

theorem oneChar_singleton (kind : Char → Bool) (c : Char) : SelfHosted.oneChar kind [c] = kind c := by
  simp [SelfHosted.oneChar]

theorem isDigit_eq (c : Char) : c.isDigit = ('0' ≤ c && c ≤ '9' : Bool) := by
  rw [Char.isDigit]
  simp only [ge_iff_le, Char.le_def]

theorem isAlpha_eq (c : Char) :
  c.isAlpha = (('a' ≤ c && c ≤ 'z') || ('A' ≤ c && c ≤ 'Z') : Bool)
  := by
  have hdef : c.isAlpha =
      (decide (c.val ≥ 'A'.val ∧ c.val ≤ 'Z'.val) || (c.val ≥ 'a'.val && c.val ≤ 'z'.val)) := rfl
  rw [hdef, Bool.or_comm]
  simp only [ge_iff_le, Char.le_def, Bool.decide_and]

/-- Two of the characters of the C locale are no spaces of the self-hosted compiler. -/
theorem isSpace_agree_iff (c : Char) :
  Driver.isSpace c = decide (c ∈ [' ', '\t', '\r', '\n']) ↔ c ≠ Char.ofNat 11 ∧ c ≠ Char.ofNat 12
  := by
  constructor
  · intro h
    constructor
    · rintro rfl
      exact absurd h (by decide)
    · rintro rfl
      exact absurd h (by decide)
  · rintro ⟨htab, hform⟩
    unfold Driver.isSpace
    rw [decide_eq_decide]
    simp only [List.mem_cons, List.not_mem_nil, htab, hform, or_false]
    tauto

/-! ### Calls -/

theorem Call.IsUnix.slashed {path : Path} (h : IsUnix path) : Slashed path := ⟨h.2.1, h.2.2⟩

/-- The runtimes agree on a call if and only if its arguments are of the kind on which what the
self-hosted one leaves out does not show. -/
theorem runtimes_agree_iff (call : Call) (h : call.Valid) : call.answer = call.selfHostedAnswer ↔ call.Agrees := by
  have hparts (path : Path) : split path = (split path).dropLast ++ [(split path).getLastD []] := by
    obtain ⟨front, last, hsplit⟩ := (List.eq_nil_or_concat (split path)).resolve_left (List.splitOn_ne_nil '/' path)
    rw [hsplit, List.concat_eq_append, List.dropLast_concat]
    simp
  cases call with
  | upper text =>
    simp only [Call.answer, Call.selfHostedAnswer, Call.Agrees, Option.some.injEq, Answer.str.injEq]
    exact map_eq_first_iff rfl (fun c text => by rw [SelfHosted.upper, shift_upper]) text
  | lower text =>
    simp only [Call.answer, Call.selfHostedAnswer, Call.Agrees, Option.some.injEq, Answer.str.injEq]
    exact map_eq_first_iff rfl (fun c text => by rw [SelfHosted.lower, shift_lower]) text
  | charAt text index =>
    obtain ⟨hlow, hhigh⟩ := h
    simp only [Call.answer, Call.selfHostedAnswer, Call.Agrees, flxStrAt_agree hlow hhigh, Option.map_some]
  | concat left right => exact ⟨fun _ => trivial, fun _ => rfl⟩
  | eq left right =>
    simp only [Call.answer, Call.selfHostedAnswer, Call.Agrees, flxStrEq_eq, selfHosted_flxStrEq]
  | castInt value => exact ⟨fun _ => trivial, fun _ => rfl⟩
  | chars text => exact ⟨fun _ => trivial, fun _ => rfl⟩
  | isDigit text =>
    obtain ⟨c, rfl⟩ := List.length_eq_one_iff.mp h
    refine ⟨fun _ => trivial, fun _ => ?_⟩
    simp only [Call.answer, Call.selfHostedAnswer]
    rw [flxStrAllDigit, SelfHosted.isDigit, flxStrAll_singleton, oneChar_singleton, isDigit_eq]
  | isAlpha text =>
    obtain ⟨c, rfl⟩ := List.length_eq_one_iff.mp h
    refine ⟨fun _ => trivial, fun _ => ?_⟩
    simp only [Call.answer, Call.selfHostedAnswer]
    rw [flxStrAllAlpha, SelfHosted.isAlpha, flxStrAll_singleton, oneChar_singleton, isAlpha_eq]
  | isSpace text =>
    obtain ⟨c, rfl⟩ := List.length_eq_one_iff.mp h
    simp only [Call.answer, Call.selfHostedAnswer, Call.Agrees, Option.some.injEq, Answer.bol.injEq,
      ne_eq, List.cons.injEq, and_true]
    rw [flxStrAllSpace, SelfHosted.isSpace, flxStrAll_singleton, oneChar_singleton]
    exact isSpace_agree_iff c
  | join parts =>
    simp only [Call.answer, Call.selfHostedAnswer, Call.Agrees, Option.some.injEq, Answer.str.injEq]
    exact pathJoin_agree_iff fun part hpart => (h part hpart).slashed
  | parent path =>
    simp only [Call.answer, Call.selfHostedAnswer, Call.Agrees, Option.some.injEq, Answer.str.injEq]
    exact pathParent_agree_iff (Call.IsUnix.slashed h) (hparts path)
  | name path =>
    simp only [Call.answer, Call.selfHostedAnswer, Call.Agrees, Option.some.injEq, Answer.str.injEq]
    exact pathName_agree_iff (Call.IsUnix.slashed h) (hparts path)
  | normalize path =>
    simp only [Call.answer, Call.selfHostedAnswer, Call.Agrees, Option.some.injEq, Answer.str.injEq]
    exact pathNormalize_agree_iff (Call.IsUnix.slashed h)

theorem runtimes_agree_normalize :
  (Call.normalize ['a', '/', '.', '/', 'b']).Valid ∧
    ((Call.normalize ['a', '/', '.', '/', 'b']).answer = (Call.normalize ['a', '/', '.', '/', 'b']).selfHostedAnswer ↔
      SinglePass ['a', '/', '.', '/', 'b'])
  := by
  have hvalid : (Call.normalize ['a', '/', '.', '/', 'b']).Valid := ⟨by decide, by decide, rfl⟩
  exact ⟨hvalid, runtimes_agree_iff _ hvalid⟩

/-- A string of two letters is one letter in upper case. -/
theorem not_runtimesAgree_upper : ¬ ∀ call : Call, call.Valid → call.answer = call.selfHostedAnswer := by
  intro hagree
  have hupper := hagree (Call.upper ['a', 'b']) trivial
  revert hupper
  decide

end Caster.Sys
