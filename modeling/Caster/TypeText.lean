import Caster.Driver.Scan

/-!
# Types as text

The source keeps a type as text.  Here are the functions that build such texts, the tests that
recognise them and the functions that take them apart, over the trees that the texts spell.
-/

namespace Caster

open Driver (Text isIdentChar)

/-! ### Texts of types -/

/-- The constructors of types. -/
inductive TypeHead where
  | ARR | MAP | REF | TSK | FN
deriving DecidableEq, Repr

/-- The characters a type with a constructor starts with. -/
def TypeHead.opening : TypeHead → Text
  | ARR => ['A', 'R', 'R', '[']
  | MAP => ['M', 'A', 'P', '[']
  | REF => ['R', 'E', 'F', '[']
  | TSK => ['T', 'S', 'K', '[']
  | FN => ['F', 'N', '[']

namespace TypeText

/-- A text has the brackets of a constructor around it. -/
def isTypeOf (head : TypeHead) (t : Text) : Bool :=
  head.opening.isPrefixOf t && t.getLast? = some ']'

def isArrayType : Text → Bool := isTypeOf .ARR

def isMapType : Text → Bool := isTypeOf .MAP

def isRefType : Text → Bool := isTypeOf .REF

def isTaskType : Text → Bool := isTypeOf .TSK

def isFnType : Text → Bool := isTypeOf .FN

def arrayType (elem : Text) : Text := TypeHead.ARR.opening ++ elem ++ [']']

def mapType (key value : Text) : Text := TypeHead.MAP.opening ++ key ++ [','] ++ value ++ [']']

def refType (target : Text) : Text := TypeHead.REF.opening ++ target ++ [']']

def taskType (target : Text) : Text := TypeHead.TSK.opening ++ target ++ [']']

def fnType (input output : Text) : Text :=
  TypeHead.FN.opening ++ input ++ ['-', '>'] ++ output ++ [']']

/-- What is behind the brackets of a constructor. -/
def bracketed (head : TypeHead) (t : Text) : Text :=
  (t.drop head.opening.length).take (t.length - (head.opening.length + 1))

def arrayElemType : Text → Text := bracketed .ARR

def refTargetType : Text → Text := bracketed .REF

def taskResultType : Text → Text := bracketed .TSK

/-- The texts before and behind the first separator that is outside brackets, where some brackets are
open already. -/
def splitOutside (sep : Text) (depth : ℤ) : Text → Option (Text × Text)
  | [] => none
  | c :: rest =>
    if c = '[' then (splitOutside sep (depth + 1) rest).map (Prod.map (c :: ·) id)
    else if c = ']' then (splitOutside sep (depth - 1) rest).map (Prod.map (c :: ·) id)
    else if sep.isPrefixOf (c :: rest) ∧ depth = 0 then some ([], (c :: rest).drop sep.length)
    else (splitOutside sep depth rest).map (Prod.map (c :: ·) id)

def splitMapType (t : Text) : Option (Text × Text) :=
  if isMapType t then splitOutside [','] 0 (bracketed .MAP t) else none

def splitFnType (t : Text) : Option (Text × Text) := splitOutside ['-', '>'] 0 (bracketed .FN t)

def mapKeyType (t : Text) : Option Text := (splitMapType t).map Prod.fst

def mapValueType (t : Text) : Option Text := (splitMapType t).map Prod.snd

def fnInputType (t : Text) : Option Text := (splitFnType t).map Prod.fst

def fnOutputType (t : Text) : Option Text := (splitFnType t).map Prod.snd

end TypeText

/-! ### Trees of types -/

/-- A type of names and constructors. -/
inductive TypeTree where
  | name (word : Text)
  | ARR (elem : TypeTree)
  | MAP (key value : TypeTree)
  | REF (target : TypeTree)
  | TSK (target : TypeTree)
  | FN (input output : TypeTree)
deriving DecidableEq

namespace TypeTree

open TypeText

/-- The text of a type. -/
def text : TypeTree → Text
  | name word => word
  | ARR elem => arrayType elem.text
  | MAP key value => mapType key.text value.text
  | REF target => refType target.text
  | TSK target => taskType target.text
  | FN input output => fnType input.text output.text

/-- The names of a type are identifiers. -/
def WellNamed : TypeTree → Prop
  | name word => word ≠ [] ∧ ∀ c ∈ word, isIdentChar c = true
  | ARR elem => elem.WellNamed
  | MAP key value => key.WellNamed ∧ value.WellNamed
  | REF target => target.WellNamed
  | TSK target => target.WellNamed
  | FN input output => input.WellNamed ∧ output.WellNamed

/-- The constructor of a type, if it is no name. -/
def head : TypeTree → Option TypeHead
  | name _ => none
  | ARR _ => some .ARR
  | MAP _ _ => some .MAP
  | REF _ => some .REF
  | TSK _ => some .TSK
  | FN _ _ => some .FN

/-- The functions that take a type apart return its parts. -/
def TakenApart : TypeTree → Prop
  | name _ => True
  | ARR elem => TypeText.arrayElemType (arrayType elem.text) = elem.text
  | MAP key value => TypeText.mapKeyType (mapType key.text value.text) = some key.text ∧
      TypeText.mapValueType (mapType key.text value.text) = some value.text
  | REF target => TypeText.refTargetType (refType target.text) = target.text
  | TSK target => TypeText.taskResultType (taskType target.text) = target.text
  | FN input output => TypeText.fnInputType (fnType input.text output.text) = some input.text ∧
      TypeText.fnOutputType (fnType input.text output.text) = some output.text

/-! ### Recognising -/

theorem isTypeOf_brackets (head head' : TypeHead) (middle : Text) :
  isTypeOf head (head'.opening ++ middle ++ [']']) = true ↔ head = head'
  := by
  rw [isTypeOf, List.getLast?_concat, Bool.and_eq_true]
  constructor
  · rintro ⟨hopening, -⟩
    revert hopening
    cases head <;> cases head' <;> simp [TypeHead.opening, List.isPrefixOf]
  · rintro rfl
    simp

theorem bracketed_brackets (head : TypeHead) (middle : Text) :
  bracketed head (head.opening ++ middle ++ [']']) = middle
  := by
  have hlength : (head.opening ++ (middle ++ [']'])).length - (head.opening.length + 1) = middle.length := by
    simp only [List.length_append, List.length_singleton]
    omega
  rw [bracketed, List.append_assoc, List.drop_left, hlength, List.take_left]

/-- No name is recognised as a type with a constructor. -/
theorem isTypeOf_name {word : Text} (h : ∀ c ∈ word, isIdentChar c = true) (head : TypeHead) :
  isTypeOf head word = false
  := by
  by_contra htype
  rw [Bool.not_eq_false, isTypeOf, Bool.and_eq_true] at htype
  have hmem : ']' ∈ word := List.mem_of_getLast? (by simpa using htype.2)
  have hchar := h _ hmem
  revert hchar
  decide

/-- The text of a type with a constructor has brackets around it. -/
theorem text_eq_brackets {t : TypeTree} {head : TypeHead} (h : t.head = some head) :
  ∃ middle, t.text = head.opening ++ middle ++ [']']
  := by
  cases t with
  | name word => cases h
  | ARR elem =>
    cases h
    exact ⟨elem.text, rfl⟩
  | MAP key value =>
    cases h
    exact ⟨key.text ++ [','] ++ value.text, by simp [text, mapType]⟩
  | REF target =>
    cases h
    exact ⟨target.text, rfl⟩
  | TSK target =>
    cases h
    exact ⟨target.text, rfl⟩
  | FN input output =>
    cases h
    exact ⟨input.text ++ ['-', '>'] ++ output.text, by simp [text, fnType]⟩

/-- A type is recognised by the test for its constructor and by no other test. -/
theorem isTypeOf_text_iff {t : TypeTree} (h : t.WellNamed) (head : TypeHead) :
  isTypeOf head t.text = true ↔ t.head = some head
  := by
  cases hhead : t.head with
  | none =>
    cases t with
    | name word => simp [text, isTypeOf_name h.2 head]
    | _ => cases hhead
  | some head' =>
    obtain ⟨middle, hmiddle⟩ := text_eq_brackets hhead
    rw [hmiddle, isTypeOf_brackets, Option.some.injEq, eq_comm]

/-! ### Taking apart -/

/-- A text is passed by the search for a separator outside brackets. -/
def Passed (sep middle : Text) (depth : ℤ) : Prop :=
  ∀ rest, splitOutside sep depth (middle ++ rest) =
    (splitOutside sep depth rest).map (Prod.map (middle ++ ·) id)

theorem passed_nil (sep : Text) (depth : ℤ) : Passed sep [] depth := by
  intro rest
  exact (congrFun Option.map_id _).symm

theorem Passed.append {sep middle middle' : Text} {depth : ℤ} (h : Passed sep middle depth)
    (h' : Passed sep middle' depth) :
  Passed sep (middle ++ middle') depth
  := by
  intro rest
  rw [List.append_assoc, h, h', Option.map_map]
  congr 1
  funext r
  simp [Prod.map]

/-- A character is passed that is no bracket and starts no separator, or is in brackets. -/
theorem passed_char {sep : Text} {c : Char} {depth : ℤ} (hopening : c ≠ '[') (hclosing : c ≠ ']')
    (h : depth ≠ 0 ∨ sep.head? ≠ some c) (hsep : sep ≠ []) :
  Passed sep [c] depth
  := by
  intro rest
  have hno : ¬ (sep.isPrefixOf (c :: rest) ∧ depth = 0) := by
    rintro ⟨hstarts, hdepth⟩
    obtain ⟨d, sep, rfl⟩ := List.exists_cons_of_ne_nil hsep
    rcases h with h | h
    · exact h hdepth
    · apply h
      have hd : d = c := by
        have := List.isPrefixOf_iff_prefix.mp hstarts
        exact (List.cons_prefix_cons.mp this).1
      rw [hd]
      rfl
  rw [List.cons_append, List.nil_append, splitOutside, if_neg hopening, if_neg hclosing, if_neg hno]
  rfl

/-- What is in brackets is passed. -/
theorem passed_brackets {sep middle : Text} {depth : ℤ} (h : Passed sep middle (depth + 1)) :
  Passed sep (['['] ++ middle ++ [']']) depth
  := by
  intro rest
  have hopen : splitOutside sep depth ('[' :: (middle ++ (']' :: rest))) =
      (splitOutside sep (depth + 1) (middle ++ (']' :: rest))).map (Prod.map ('[' :: ·) id) := by
    rw [splitOutside, if_pos rfl]
  have hclose : splitOutside sep (depth + 1) (']' :: rest) =
      (splitOutside sep depth rest).map (Prod.map (']' :: ·) id) := by
    rw [splitOutside, if_neg (by decide), if_pos rfl, add_sub_cancel_right]
  have htext : ['['] ++ middle ++ [']'] ++ rest = '[' :: (middle ++ (']' :: rest)) := by simp
  rw [htext, hopen, h, hclose, Option.map_map, Option.map_map]
  congr 1
  funext r
  simp [Prod.map]

/-- The characters of a name and of a constructor are passed. -/
theorem passed_chars {sep middle : Text} {depth : ℤ} (h : ∀ c ∈ middle, isIdentChar c = true)
    (hsep : sep.head?.any isIdentChar = false) (hne : sep ≠ []) :
  Passed sep middle depth
  := by
  induction middle with
  | nil => exact passed_nil sep depth
  | cons c middle ih =>
    have hc := h c List.mem_cons_self
    have hpassed : Passed sep [c] depth := by
      apply passed_char _ _ (Or.inr _) hne
      · rintro rfl
        revert hc
        decide
      · rintro rfl
        revert hc
        decide
      · intro hhead
        rw [hhead, Option.any_some, hc] at hsep
        cases hsep
    exact hpassed.append (ih fun d hd => h d (List.mem_cons_of_mem _ hd))

/-- The separators are no characters of names. -/
def IsSeparator (sep : Text) : Prop := sep.head?.any isIdentChar = false ∧ sep ≠ []

theorem isSeparator_comma : IsSeparator [','] := ⟨by decide, by decide⟩

theorem isSeparator_arrow : IsSeparator ['-', '>'] := ⟨by decide, by decide⟩

/-- A constructor and its brackets are passed. -/
theorem passed_constructor {sep middle : Text} {depth : ℤ} (hsep : IsSeparator sep) (head : TypeHead)
    (h : Passed sep middle (depth + 1)) :
  Passed sep (head.opening ++ middle ++ [']']) depth
  := by
  have hword : ∃ word, head.opening = word ++ ['['] ∧ ∀ c ∈ word, isIdentChar c = true := by
    cases head with
    | ARR => exact ⟨['A', 'R', 'R'], rfl, by simp [isIdentChar]⟩
    | MAP => exact ⟨['M', 'A', 'P'], rfl, by simp [isIdentChar]⟩
    | REF => exact ⟨['R', 'E', 'F'], rfl, by simp [isIdentChar]⟩
    | TSK => exact ⟨['T', 'S', 'K'], rfl, by simp [isIdentChar]⟩
    | FN => exact ⟨['F', 'N'], rfl, by simp [isIdentChar]⟩
  obtain ⟨word, hopening, hchars⟩ := hword
  have hpassed := (passed_chars hchars hsep.1 hsep.2).append (passed_brackets h)
  rw [hopening]
  simpa using hpassed

/-- The text of a type is passed: its separators are in brackets. -/
theorem passed_text {sep : Text} (hsep : IsSeparator sep) {t : TypeTree} (h : t.WellNamed) {depth : ℤ}
    (hdepth : 0 ≤ depth) :
  Passed sep t.text depth
  := by
  have hinside {c : Char} {depth : ℤ} (hopening : c ≠ '[') (hclosing : c ≠ ']') (hdepth : 0 ≤ depth) :
      Passed sep [c] (depth + 1) := passed_char hopening hclosing (Or.inl (by omega)) hsep.2
  induction t generalizing depth with
  | name word => exact passed_chars h.2 hsep.1 hsep.2
  | ARR elem ih => exact passed_constructor hsep .ARR (ih h (by omega))
  | MAP key value ihk ihv =>
    have hcomma : Passed sep [','] (depth + 1) := hinside (by decide) (by decide) hdepth
    have hmiddle := ((ihk h.1 (by omega)).append hcomma).append (ihv h.2 (by omega))
    have hpassed := passed_constructor hsep .MAP hmiddle
    simpa [text, mapType] using hpassed
  | REF target ih => exact passed_constructor hsep .REF (ih h (by omega))
  | TSK target ih => exact passed_constructor hsep .TSK (ih h (by omega))
  | FN input output ihi iho =>
    have hminus : Passed sep ['-'] (depth + 1) := hinside (by decide) (by decide) hdepth
    have hgreater : Passed sep ['>'] (depth + 1) := hinside (by decide) (by decide) hdepth
    have hmiddle := ((ihi h.1 (by omega)).append (hminus.append hgreater)).append (iho h.2 (by omega))
    have hpassed := passed_constructor hsep .FN hmiddle
    simpa [text, fnType] using hpassed

/-- Two types with a separator between them are taken apart there. -/
theorem splitOutside_text {sep : Text} (hsep : IsSeparator sep)
    (hbracket : sep.head? ≠ some '[' ∧ sep.head? ≠ some ']') {t : TypeTree} (h : t.WellNamed) (rest : Text) :
  splitOutside sep 0 (t.text ++ (sep ++ rest)) = some (t.text, rest)
  := by
  obtain ⟨c, sep', rfl⟩ := List.exists_cons_of_ne_nil hsep.2
  have hopening : c ≠ '[' := fun hc => hbracket.1 (congrArg some hc)
  have hclosing : c ≠ ']' := fun hc => hbracket.2 (congrArg some hc)
  have hstarts : (c :: sep').isPrefixOf (c :: (sep' ++ rest)) ∧ (0 : ℤ) = 0 :=
    ⟨List.isPrefixOf_iff_prefix.mpr (List.prefix_append (c :: sep') rest), rfl⟩
  have hdrop : (c :: (sep' ++ rest)).drop (c :: sep').length = rest := @List.drop_left _ (c :: sep') rest
  have hsplit : splitOutside (c :: sep') 0 (c :: sep' ++ rest) = some ([], rest) := by
    rw [List.cons_append, splitOutside, if_neg hopening, if_neg hclosing, if_pos hstarts, hdrop]
  rw [passed_text hsep h le_rfl, hsplit]
  simp

theorem splitMapType_mapType {key value : TypeTree} (h : key.WellNamed) :
  TypeText.splitMapType (mapType key.text value.text) = some (key.text, value.text)
  := by
  have htext : mapType key.text value.text =
      TypeHead.MAP.opening ++ (key.text ++ ([','] ++ value.text)) ++ [']'] := by
    simp [mapType]
  have htype : TypeText.isMapType (mapType key.text value.text) = true := by
    rw [htext]
    exact (isTypeOf_brackets .MAP .MAP _).mpr rfl
  rw [TypeText.splitMapType, if_pos htype, htext, bracketed_brackets]
  exact splitOutside_text isSeparator_comma (by decide) h _

theorem splitFnType_fnType {input output : TypeTree} (h : input.WellNamed) :
  TypeText.splitFnType (fnType input.text output.text) = some (input.text, output.text)
  := by
  have htext : fnType input.text output.text =
      TypeHead.FN.opening ++ (input.text ++ (['-', '>'] ++ output.text)) ++ [']'] := by
    simp [fnType]
  rw [TypeText.splitFnType, htext, bracketed_brackets]
  exact splitOutside_text isSeparator_arrow (by decide) h _

theorem takenApart {t : TypeTree} (h : t.WellNamed) : t.TakenApart := by
  cases t with
  | name word => trivial
  | ARR elem => exact bracketed_brackets .ARR elem.text
  | MAP key value =>
    rw [TakenApart, TypeText.mapKeyType, TypeText.mapValueType, splitMapType_mapType h.1]
    exact ⟨rfl, rfl⟩
  | REF target => exact bracketed_brackets .REF target.text
  | TSK target => exact bracketed_brackets .TSK target.text
  | FN input output =>
    rw [TakenApart, TypeText.fnInputType, TypeText.fnOutputType, splitFnType_fnType h.1]
    exact ⟨rfl, rfl⟩

/-! ### Faithfulness -/

/-- Types with one text have one constructor. -/
theorem head_eq_of_text_eq {t t' : TypeTree} (h : t.WellNamed) (h' : t'.WellNamed) (heq : t.text = t'.text) :
  t.head = t'.head
  := by
  have hiff (head : TypeHead) : t.head = some head ↔ t'.head = some head := by
    rw [← isTypeOf_text_iff h, ← isTypeOf_text_iff h', heq]
  cases hhead : t.head with
  | some head => exact ((hiff head).mp hhead).symm
  | none =>
    cases hhead' : t'.head with
    | none => rfl
    | some head =>
      rw [(hiff head).mpr hhead'] at hhead
      cases hhead

/-- Types with one text are one type. -/
theorem text_injective {t t' : TypeTree} (h : t.WellNamed) (h' : t'.WellNamed) (heq : t.text = t'.text) :
  t = t'
  := by
  have hinner (head : TypeHead) {middle middle' : Text}
      (heq : head.opening ++ middle ++ [']'] = head.opening ++ middle' ++ [']']) : middle = middle' := by
    rw [← bracketed_brackets head middle, heq, bracketed_brackets]
  induction t generalizing t' with
  | name word =>
    have hhead := head_eq_of_text_eq h h' heq
    cases t' with
    | name word' => exact congrArg name heq
    | _ => cases hhead
  | ARR elem ih =>
    have hhead := head_eq_of_text_eq h h' heq
    cases t' with
    | ARR elem' => rw [@ih elem' h h' (hinner .ARR heq)]
    | _ => cases hhead
  | MAP key value ihk ihv =>
    have hhead := head_eq_of_text_eq h h' heq
    cases t' with
    | MAP key' value' =>
      have hsplit := congrArg TypeText.splitMapType heq
      rw [text, text, splitMapType_mapType h.1, splitMapType_mapType h'.1, Option.some.injEq,
        Prod.mk.injEq] at hsplit
      rw [ihk h.1 h'.1 hsplit.1, ihv h.2 h'.2 hsplit.2]
    | _ => cases hhead
  | REF target ih =>
    have hhead := head_eq_of_text_eq h h' heq
    cases t' with
    | REF target' => rw [@ih target' h h' (hinner .REF heq)]
    | _ => cases hhead
  | TSK target ih =>
    have hhead := head_eq_of_text_eq h h' heq
    cases t' with
    | TSK target' => rw [@ih target' h h' (hinner .TSK heq)]
    | _ => cases hhead
  | FN input output ihi iho =>
    have hhead := head_eq_of_text_eq h h' heq
    cases t' with
    | FN input' output' =>
      have hsplit := congrArg TypeText.splitFnType heq
      rw [text, text, splitFnType_fnType h.1, splitFnType_fnType h'.1, Option.some.injEq,
        Prod.mk.injEq] at hsplit
      rw [ihi h.1 h'.1 hsplit.1, iho h.2 h'.2 hsplit.2]
    | _ => cases hhead

/-- The text of a type is recognised by the test for its constructor only, it is taken apart into its
parts, and no other type has this text. -/
theorem typeText_faithful (t : TypeTree) (h : t.WellNamed) :
  (∀ head, isTypeOf head t.text = true ↔ t.head = some head) ∧ t.TakenApart ∧
    ∀ t' : TypeTree, t'.WellNamed → t.text = t'.text → t = t'
  := ⟨isTypeOf_text_iff h, takenApart h, fun _ h' heq => text_injective h h' heq⟩

/-- The type `MAP[STR,FN[INT->T]]`, whose text is not that of the name `T`. -/
theorem typeText_faithful_map :
  isTypeOf .MAP (MAP (name ['S', 'T', 'R']) (FN (name ['I', 'N', 'T']) (name ['T']))).text = true ∧
    (MAP (name ['S', 'T', 'R']) (FN (name ['I', 'N', 'T']) (name ['T']))).TakenApart ∧
    (MAP (name ['S', 'T', 'R']) (FN (name ['I', 'N', 'T']) (name ['T']))).text ≠
      (name ['T']).text
  := by
  obtain ⟨hhead, hparts, hunique⟩ := typeText_faithful
    (MAP (name ['S', 'T', 'R']) (FN (name ['I', 'N', 'T']) (name ['T'])))
    (by simp [WellNamed, isIdentChar])
  refine ⟨(hhead .MAP).mpr rfl, hparts, ?_⟩
  intro heq
  cases hunique (name ['T']) (by simp [WellNamed, isIdentChar]) heq

end TypeTree

end Caster
