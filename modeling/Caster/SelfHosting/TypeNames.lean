import Caster.Library.Marks
import Caster.Library.TypeTerms
import Caster.SelfHosting.Statements

/-!
# Type names of the self-hosted compiler

The self-hosted compiler keeps types as text.  The text `parseTypeName` makes of a type without
errors is the one of a term over primitive types and names.  `canonicalTypeName` puts the module in
front of the names in it, by prefixes and fixed offsets: it looks into `REF` and `ARR`, and takes
any other type for one name.
-/

namespace Caster.SelfHosting

open Driver (Text isIdentChar lawfulBEq_text)
open TypeTerms (Term)

attribute [local instance] lawfulBEq_text

/-! ### Types -/

/-- The types without arguments. -/
inductive Primitive where
  | INT | FLT | BOL | STR | NUL | DYN
deriving DecidableEq

/-- The text of a primitive type. -/
def Primitive.text : Primitive → Text
  | INT => ['I', 'N', 'T']
  | FLT => ['F', 'L', 'T']
  | BOL => ['B', 'O', 'L']
  | STR => ['S', 'T', 'R']
  | NUL => ['N', 'U', 'L']
  | DYN => ['D', 'Y', 'N']

/-- A name: a word the lexer has no other kind for. -/
structure Name where
  chars : Text
  ne_nil : chars ≠ []
  ident : ∀ c ∈ chars, isIdentChar c = true
  kind : keywordKind (String.ofList chars) = .NAME

/-- The constructors of one argument. -/
inductive Container where
  | ARR | REF | TSK
deriving DecidableEq

/-- The word of a constructor of one argument. -/
def Container.text : Container → Text
  | ARR => ['A', 'R', 'R']
  | REF => ['R', 'E', 'F']
  | TSK => ['T', 'S', 'K']

/-- The constructors of two arguments. -/
inductive Pairing where
  | MAP | FN
deriving DecidableEq

/-- The word of a constructor of two arguments. -/
def Pairing.text : Pairing → Text
  | MAP => ['M', 'A', 'P']
  | FN => ['F', 'N']

/-- What is between the two arguments. -/
def Pairing.separator : Pairing → Text
  | MAP => [',', ' ']
  | FN => [' ', '-', '>', ' ']

/-- The types other types are built from. -/
inductive Leaf where
  | primitive (p : Primitive)
  | name (name : Name)
  /-- The name of a type of a module. -/
  | member (module name : Name)

/-- A type as it is written. -/
abbrev TypeName : Type := Term Leaf Container Pairing

/-- The text of a name, with a module in front if it is not empty. -/
def inModule (module text : Text) : Text := if module = [] then text else module ++ '.' :: text

/-- The text of a leaf. -/
def Leaf.text : Leaf → Text
  | primitive p => p.text
  | name n => n.chars
  | member module n => module.chars ++ '.' :: n.chars

/-- The text of a leaf with a module in front of an unqualified name. -/
def Leaf.qualifiedText (module : Text) : Leaf → Text
  | name n => inModule module n.chars
  | l => l.text

/-- The text in front of the argument of a constructor. -/
def Container.opening (c : Container) : Text := c.text ++ ['[']

/-- A constructor around the text of its argument. -/
def wrap (c : Container) (inner : Text) : Text := c.opening ++ inner ++ [']']

/-- The text of a type with a text for each leaf. -/
def render (leafText : Leaf → Text) : TypeName → Text
  | .leaf l => leafText l
  | .unary c inner => wrap c (render leafText inner)
  | .binary p first second =>
    p.text ++ '[' :: (render leafText first ++ p.separator ++ render leafText second ++ [']'])

/-- The text of a type. -/
def typeText : TypeName → Text := render Leaf.text

/-- The text of a type with a module in front of its unqualified names. -/
def qualifiedText (module : Text) : TypeName → Text := render (Leaf.qualifiedText module)

/-! ### Tests of texts -/

/-- A text starts with another one. -/
def startsWith (text start : Text) : Bool := start.isPrefixOf text

/-- A text has a dot. -/
def hasDot (text : Text) : Bool := '.' ∈ text

/-- A text without its first four characters and its last one. -/
def stripContainer (typeName : Text) : Text := (typeName.drop 4).dropLast

/-- A text is the name of a primitive type. -/
def isPrimitiveType (typeName : Text) : Bool :=
  typeName ∈ [Primitive.INT, .FLT, .BOL, .STR, .NUL, .DYN].map Primitive.text

theorem length_stripContainer_lt {text start : Text} (h : startsWith text start = true)
    (hstart : 4 ≤ start.length) :
  (stripContainer text).length < text.length
  := by
  have hle := (List.isPrefixOf_iff_prefix.mp h).length_le
  simp only [stripContainer, List.length_dropLast, List.length_drop]
  omega

/-- The canonical name of a type in a module, where some types are native. -/
def canonicalWith (isNativeType : Text → Bool) (module typeName : Text) : Text :=
  if typeName = [] then []
  else if startsWith typeName Container.REF.opening then
    wrap .REF (canonicalWith isNativeType module (stripContainer typeName))
  else if startsWith typeName Container.ARR.opening then
    wrap .ARR (canonicalWith isNativeType module (stripContainer typeName))
  else if isPrimitiveType typeName || hasDot typeName || isNativeType typeName then typeName
  else inModule module typeName
termination_by typeName.length
decreasing_by all_goals exact length_stripContainer_lt (by assumption) (by decide)

/-- The native types the analyzer knows. -/
def Analyzer.isNativeType (typeName : Text) : Bool :=
  typeName ∈ ["BUF.Buffer", "FS.FileStat", "PROC.Result", "SQL.DB", "SQL.Exec", "WEB.Req", "WEB.Res",
    "WEB.App", "REQ.HttpRes"].map String.toList

/-- The canonical name of a type in the analyzer. -/
def Analyzer.canonicalTypeName (typeName module : Text) : Text :=
  canonicalWith Analyzer.isNativeType module typeName

/-- The native types the emitter knows. -/
def Names.isNativeType (typeName : Text) : Bool :=
  typeName ∈ ["BUF.Buffer", "Buffer"].map String.toList

/-- The canonical name of a type in the emitter. -/
def Names.canonicalTypeName (typeName module : Text) : Text :=
  canonicalWith Names.isNativeType module typeName

/-! ### Characters of names -/

theorem isIdentChar_ne_sign {c : Char} (h : isIdentChar c = true) :
  c ≠ '.' ∧ c ≠ '[' ∧ c ≠ ']' ∧ c ≠ ',' ∧ c ≠ ' '
  := by
  refine ⟨?_, ?_, ?_, ?_, ?_⟩
  all_goals
    rintro rfl
    revert h
    decide

theorem Name.dot_not_mem (n : Name) : '.' ∉ n.chars := fun h => (isIdentChar_ne_sign (n.ident _ h)).1 rfl

theorem Primitive.ident (p : Primitive) : ∀ c ∈ p.text, isIdentChar c = true := by
  cases p <;> exact List.all_eq_true.mp rfl

theorem Primitive.text_injective {p p' : Primitive} (h : p.text = p'.text) : p = p' := by
  cases p <;> cases p' <;> first | rfl | exact absurd h (by decide)

theorem isPrimitiveType_text (p : Primitive) : isPrimitiveType p.text = true := by
  cases p <;> rfl

/-- No name is a primitive type. -/
theorem Name.not_isPrimitiveType (n : Name) : isPrimitiveType n.chars = false := by
  rw [Bool.eq_false_iff]
  intro h
  obtain ⟨p, -, hp⟩ := List.mem_map.mp (of_decide_eq_true h)
  have hkind := n.kind
  rw [← hp] at hkind
  cases p <;> exact absurd hkind (by decide)

theorem exists_of_isPrimitiveType {text : Text} (h : isPrimitiveType text = true) :
  ∃ p : Primitive, text = p.text
  := by
  obtain ⟨p, -, hp⟩ := List.mem_map.mp (of_decide_eq_true h)
  exact ⟨p, hp.symm⟩

/-! ### Constructors around a text -/

theorem stripContainer_wrap (c : Container) (inner : Text) : stripContainer (wrap c inner) = inner := by
  cases c <;> exact List.dropLast_concat

theorem startsWith_wrap (c c' : Container) (inner : Text) :
  startsWith (wrap c inner) c'.opening = decide (c = c')
  := by
  cases c <;> cases c' <;> rfl

theorem wrap_ne_nil (c : Container) (inner : Text) : wrap c inner ≠ [] := by
  simp [wrap]

theorem wrap_injective {c : Container} {inner inner' : Text} (h : wrap c inner = wrap c inner') :
  inner = inner'
  := by
  rw [← stripContainer_wrap c inner, h, stripContainer_wrap]

/-- A text that `canonicalTypeName` does not look into. -/
def IsCore (text : Text) : Prop :=
  text ≠ [] ∧ startsWith text Container.REF.opening = false ∧
    startsWith text Container.ARR.opening = false

section

variable {isNativeType : Text → Bool} {module : Text}

theorem canonicalWith_wrap {c : Container} (hc : c ≠ .TSK) (inner : Text) :
  canonicalWith isNativeType module (wrap c inner) = wrap c (canonicalWith isNativeType module inner)
  := by
  rw [canonicalWith, if_neg (wrap_ne_nil c inner), startsWith_wrap, startsWith_wrap, stripContainer_wrap]
  cases c with
  | REF | ARR => rfl
  | TSK => exact absurd rfl hc

theorem canonicalWith_core {text : Text} (h : IsCore text) :
  canonicalWith isNativeType module text =
    if isPrimitiveType text || hasDot text || isNativeType text then text else inModule module text
  := by
  rw [canonicalWith, if_neg h.1, if_neg (by simp [h.2.1]), if_neg (by simp [h.2.2])]

end

/-! ### Texts of types -/

/-- A type that `canonicalTypeName` does not look into. -/
def IsCoreType : TypeName → Prop
  | .unary .REF _ | .unary .ARR _ => False
  | _ => True

/-- A leaf with a module. -/
def Leaf.isMember : Leaf → Bool
  | member _ _ => true
  | _ => false

/-- An unqualified name. -/
def Leaf.isName : Leaf → Bool
  | name _ => true
  | _ => false

theorem isCore_of_bracket {text : Text} (hne : text ≠ []) (h : '[' ∉ text) : IsCore text := by
  have hstart : ∀ c : Container, startsWith text c.opening = false := by
    intro c
    rw [Bool.eq_false_iff]
    intro hstart
    apply h
    apply (List.isPrefixOf_iff_prefix.mp hstart).subset
    exact List.mem_append_right _ (List.mem_singleton_self _)
  exact ⟨hne, hstart .REF, hstart .ARR⟩

theorem Leaf.text_ne_nil (l : Leaf) : l.text ≠ [] := by
  cases l with
  | primitive p => cases p <;> exact List.cons_ne_nil _ _
  | name n => exact n.ne_nil
  | member module n => simp [Leaf.text]

theorem Leaf.bracket_not_mem (l : Leaf) : '[' ∉ l.text := by
  have hident : ∀ {text : Text}, (∀ c ∈ text, isIdentChar c = true) → '[' ∉ text :=
    fun h hmem => (isIdentChar_ne_sign (h _ hmem)).2.1 rfl
  cases l with
  | primitive p => exact hident p.ident
  | name n => exact hident n.ident
  | member module n => simp [Leaf.text, hident module.ident, hident n.ident]

theorem isCore_leaf (l : Leaf) : IsCore l.text := isCore_of_bracket l.text_ne_nil l.bracket_not_mem

theorem dot_mem_leaf {l : Leaf} : '.' ∈ l.text ↔ l.isMember = true := by
  cases l with
  | primitive p => cases p <;> decide
  | name n => simp [Leaf.text, Leaf.isMember, n.dot_not_mem]
  | member module n => simp [Leaf.text, Leaf.isMember]

/-- A text has a dot when a type of a module is in it. -/
theorem hasDot_typeText (t : TypeName) : hasDot (typeText t) = t.leaves.any Leaf.isMember := by
  have hiff : '.' ∈ typeText t ↔ t.leaves.any Leaf.isMember = true := by
    induction t with
    | leaf l => simpa [typeText, render, Term.leaves] using dot_mem_leaf
    | unary c inner ih =>
      have hc : '.' ∉ c.opening := by cases c <;> decide
      simpa [typeText, render, wrap, hc, Term.leaves] using ih
    | binary p first second ih ih' =>
      have hp : '.' ∉ p.text ∧ '.' ∉ p.separator := by cases p <;> decide
      simp only [typeText] at ih ih'
      simp [typeText, render, hp, Term.leaves, ih, ih']
  rw [hasDot, Bool.eq_iff_iff, decide_eq_true_eq]
  exact hiff

theorem render_congr {f g : Leaf → Text} {t : TypeName} (h : ∀ l ∈ t.leaves, f l = g l) :
  render f t = render g t
  := by
  induction t with
  | leaf l => exact h l (List.mem_singleton_self l)
  | unary c inner ih => rw [render, render, ih h]
  | binary p first second ih ih' =>
    rw [render, render, ih fun l hl => h l (List.mem_append_left _ hl),
      ih' fun l hl => h l (List.mem_append_right _ hl)]

/-- Without unqualified names there is nothing to qualify. -/
theorem qualifiedText_eq (module : Text) {t : TypeName} (h : t.leaves.any Leaf.isName = false) :
  qualifiedText module t = typeText t
  := by
  apply render_congr
  intro l hl
  have hname := List.any_eq_false.mp h l hl
  cases l with
  | name n => exact absurd rfl hname
  | _ => rfl

/-- A module in front of each unqualified name. -/
theorem length_qualifiedText {module : Text} (hmodule : module ≠ []) (t : TypeName) :
  (qualifiedText module t).length =
    (typeText t).length + t.leaves.countP Leaf.isName * (module.length + 1)
  := by
  induction t with
  | leaf l =>
    cases l with
    | primitive p => simp [qualifiedText, typeText, render, Leaf.qualifiedText, Term.leaves, Leaf.isName]
    | member m n => simp [qualifiedText, typeText, render, Leaf.qualifiedText, Term.leaves, Leaf.isName]
    | name n =>
      simp [qualifiedText, typeText, render, Leaf.qualifiedText, Term.leaves, Leaf.isName, Leaf.text,
        inModule, hmodule]
      omega
  | unary c inner ih =>
    simp only [qualifiedText, typeText] at ih
    simp [qualifiedText, typeText, render, wrap, Term.leaves, ih]
    omega
  | binary p first second ih ih' =>
    simp only [qualifiedText, typeText] at ih ih'
    simp [qualifiedText, typeText, render, Term.leaves, ih, ih', Nat.add_mul]
    omega

/-- Behind the last dot of a type with unqualified names only is less than the type, unless the type
is a name. -/
theorem exists_behind_dot {module : Text} (hmodule : module ≠ []) {t : TypeName}
    (hmember : t.leaves.any Leaf.isMember = false) (hname : t.leaves.any Leaf.isName = true) :
  ∃ before behind, qualifiedText module t = before ++ '.' :: behind ∧ '.' ∉ behind ∧
    behind.length ≤ (typeText t).length ∧
    ((∃ l, t = .leaf l) ∨ behind.length < (typeText t).length)
  := by
  induction t with
  | leaf l =>
    cases l with
    | primitive p => cases hname
    | member m n => cases hmember
    | name n =>
      refine ⟨module, n.chars, ?_, n.dot_not_mem, le_refl _, Or.inl ⟨_, rfl⟩⟩
      exact if_neg hmodule
  | unary c inner ih =>
    obtain ⟨before, behind, htext, hdot, hle, -⟩ := ih hmember hname
    simp only [qualifiedText, typeText] at htext hle
    refine ⟨c.opening ++ before, behind ++ [']'], ?_, by simpa using hdot, ?_, Or.inr ?_⟩
    · simp [qualifiedText, render, wrap, htext]
    · simp [typeText, render, wrap]
      omega
    · have hopening : 0 < c.opening.length := by simp [Container.opening]
      simp [typeText, render, wrap]
      omega
  | binary p first second ih ih' =>
    simp only [Term.leaves, List.any_append, Bool.or_eq_false_iff, Bool.or_eq_true] at hmember hname
    have hplain : ∀ t : TypeName, t.leaves.any Leaf.isMember = false → '.' ∉ typeText t := by
      intro t ht hdot
      have hhas := hasDot_typeText t
      rw [ht] at hhas
      exact of_decide_eq_false hhas hdot
    have hp : '.' ∉ p.separator := by cases p <;> decide
    by_cases hsecond : second.leaves.any Leaf.isName = true
    · obtain ⟨before, behind, htext, hdot, hle, -⟩ := ih' hmember.2 hsecond
      simp only [qualifiedText, typeText] at htext hle
      refine ⟨p.text ++ '[' :: (qualifiedText module first ++ p.separator ++ before),
        behind ++ [']'], ?_, by simpa using hdot, ?_, Or.inr ?_⟩
      · simp [qualifiedText, render, htext]
      · simp [typeText, render]
        omega
      · simp [typeText, render]
        omega
    · obtain ⟨before, behind, htext, hdot, hle, -⟩ := ih hmember.1 (hname.resolve_right hsecond)
      have hunchanged := qualifiedText_eq module (Bool.eq_false_iff.mpr hsecond)
      simp only [qualifiedText, typeText] at htext hle hunchanged
      refine ⟨p.text ++ '[' :: before, behind ++ p.separator ++ typeText second ++ [']'], ?_, ?_, ?_,
        Or.inr ?_⟩
      · simp [qualifiedText, typeText, render, htext, hunchanged]
      · simp [hdot, hp, hplain second hmember.2]
      · simp [typeText, render]
        omega
      · simp [typeText, render]
        omega

/-- A type that starts with another constructor than `REF` and `ARR`. -/
def IsComposite (t : TypeName) : Prop := IsCoreType t ∧ ∀ l, t ≠ .leaf l

theorem bracket_mem_typeText {t : TypeName} (h : ∀ l, t ≠ .leaf l) : '[' ∈ typeText t := by
  cases t with
  | leaf l => exact absurd rfl (h l)
  | unary c inner => simp [typeText, render, wrap, Container.opening]
  | binary p first second => simp [typeText, render]

theorem isCore_composite {t : TypeName} (h : IsComposite t) : IsCore (typeText t) := by
  cases t with
  | leaf l => exact absurd rfl (h.2 l)
  | unary c inner =>
    cases c with
    | TSK => exact ⟨wrap_ne_nil _ _, rfl, rfl⟩
    | ARR | REF => exact h.1.elim
  | binary p first second =>
    cases p with
    | MAP => exact ⟨List.cons_ne_nil _ _, rfl, rfl⟩
    | FN => exact ⟨List.cons_ne_nil _ _, rfl, rfl⟩

theorem isPrimitiveType_of_bracket {text : Text} (h : '[' ∈ text) : isPrimitiveType text = false := by
  rw [Bool.eq_false_iff]
  intro hprimitive
  obtain ⟨p, rfl⟩ := exists_of_isPrimitiveType hprimitive
  exact (isIdentChar_ne_sign (p.ident _ h)).2.1 rfl

/-- A composite type is taken for a name: it is left alone where a type of a module is in it, and
the module is put in front of it elsewhere. -/
theorem canonicalWith_composite {isNativeType : Text → Bool} {module : Text} {t : TypeName}
    (h : IsComposite t) (hnative : ∀ text, isNativeType text = true → '[' ∉ text) :
  canonicalWith isNativeType module (typeText t) =
    if t.leaves.any Leaf.isMember then typeText t else inModule module (typeText t)
  := by
  have hbracket := bracket_mem_typeText h.2
  have hprimitive := isPrimitiveType_of_bracket hbracket
  have hnot : isNativeType (typeText t) = false := by
    rw [Bool.eq_false_iff]
    exact fun hn => hnative _ hn hbracket
  rw [canonicalWith_core (isCore_composite h), hprimitive, hnot, hasDot_typeText]
  simp

theorem bracket_not_mem_native {text : Text} :
  (Analyzer.isNativeType text = true → '[' ∉ text) ∧ (Names.isNativeType text = true → '[' ∉ text)
  := by
  constructor
  all_goals
    intro h
    obtain ⟨native, hmem, rfl⟩ := List.mem_map.mp (of_decide_eq_true h)
    fin_cases hmem <;> decide

/-! ### Reading a text -/

/-- What may follow a type. -/
def Stops (rest : Text) : Prop := ∀ c ∈ rest.head?, c ∈ [']', ',', ' ']

/-- The word a type starts with. -/
def headWord : TypeName → Text
  | .leaf (.primitive p) => p.text
  | .leaf (.name n) => n.chars
  | .leaf (.member module _) => module.chars
  | .unary c _ => c.text
  | .binary p _ _ => p.text

/-- What is behind the first word of a type. -/
def behindWord : TypeName → Text
  | .leaf (.member _ n) => '.' :: n.chars
  | .leaf _ => []
  | .unary _ inner => '[' :: (typeText inner ++ [']'])
  | .binary p first second => '[' :: (typeText first ++ p.separator ++ typeText second ++ [']'])

theorem headWord_append_behindWord (t : TypeName) : headWord t ++ behindWord t = typeText t := by
  cases t with
  | leaf l => cases l <;> simp [headWord, behindWord, typeText, render, Leaf.text]
  | unary c inner => simp [headWord, behindWord, typeText, render, wrap, Container.opening]
  | binary p first second => simp [headWord, behindWord, typeText, render]

theorem headWord_ident (t : TypeName) : ∀ c ∈ headWord t, isIdentChar c = true := by
  cases t with
  | leaf l =>
    cases l with
    | primitive p => exact p.ident
    | name n => exact n.ident
    | member module n => exact module.ident
  | unary c inner => cases c <;> exact List.all_eq_true.mp rfl
  | binary p first second => cases p <;> exact List.all_eq_true.mp rfl

theorem Stops.not_ident {rest : Text} (h : Stops rest) : ∀ c ∈ rest.head?, isIdentChar c = false := by
  intro c hc
  have hmem := h c hc
  fin_cases hmem <;> rfl

theorem behindWord_not_ident (t : TypeName) {rest : Text} (h : Stops rest) :
  ∀ c ∈ (behindWord t ++ rest).head?, isIdentChar c = false
  := by
  intro c hc
  cases t with
  | leaf l =>
    cases l with
    | member module n =>
      cases hc
      rfl
    | _ => exact h.not_ident c hc
  | unary _ inner =>
    cases hc
    rfl
  | binary p first second =>
    cases hc
    rfl

/-- A text is cut behind its first word in one way. -/
theorem cut_word {word word' rest rest' : Text} (hword : ∀ c ∈ word, isIdentChar c = true)
    (hword' : ∀ c ∈ word', isIdentChar c = true) (hrest : ∀ c ∈ rest.head?, isIdentChar c = false)
    (hrest' : ∀ c ∈ rest'.head?, isIdentChar c = false) (h : word ++ rest = word' ++ rest') :
  word = word' ∧ rest = rest'
  := by
  have hcut : ∀ {word rest : Text}, (∀ c ∈ word, isIdentChar c = true) →
      (∀ c ∈ rest.head?, isIdentChar c = false) → (word ++ rest).takeWhile isIdentChar = word := by
    intro word rest hword hrest
    rw [List.takeWhile_append_of_pos hword]
    cases rest with
    | nil => simp
    | cons c rest => rw [List.takeWhile_cons_of_neg (by simp [hrest c rfl]), List.append_nil]
  have hwords : word = word' := by rw [← hcut hword hrest, h, hcut hword' hrest']
  rw [hwords] at h
  exact ⟨hwords, List.append_cancel_left h⟩

theorem Name.chars_injective {n n' : Name} (h : n.chars = n'.chars) : n = n' := by
  cases n
  cases n'
  cases h
  rfl

theorem Container.text_injective {c c' : Container} (h : c.text = c'.text) : c = c' := by
  cases c <;> cases c' <;> first | rfl | exact absurd h (by decide)

theorem Pairing.text_injective {p p' : Pairing} (h : p.text = p'.text) : p = p' := by
  cases p <;> cases p' <;> first | rfl | exact absurd h (by decide)

theorem Container.text_ne (c : Container) (p : Pairing) : c.text ≠ p.text := by
  cases c <;> cases p <;> decide

theorem Primitive.text_ne (p : Primitive) (n : Name) : p.text ≠ n.chars := by
  intro h
  have hnot := n.not_isPrimitiveType
  rw [← h, isPrimitiveType_text] at hnot
  cases hnot

theorem Stops.not_cons {c : Char} (hc : c = '.' ∨ c = '[') (rest : Text) : ¬ Stops (c :: rest) := by
  intro h
  have hmem := h c rfl
  rcases hc with rfl | rfl <;> revert hmem <;> decide

theorem stops_closing (rest : Text) : Stops (']' :: rest) := by
  intro c hc
  cases hc
  decide

theorem stops_separator (p : Pairing) (rest : Text) : Stops (p.separator ++ rest) := by
  intro c hc
  cases p <;> cases hc <;> decide

/-- What is behind a leaf has no bracket in front. -/
theorem behindWord_leaf_ne (l : Leaf) {rest : Text} (hrest : Stops rest) (behind : Text) :
  behindWord (.leaf l) ++ rest ≠ '[' :: behind
  := by
  intro h
  cases l with
  | member module n => cases h
  | primitive p | name n =>
    simp only [behindWord, List.nil_append] at h
    exact Stops.not_cons (Or.inr rfl) behind (h ▸ hrest)

theorem leaf_injective {l l' : Leaf} {rest rest' : Text} (hrest : Stops rest) (hrest' : Stops rest')
    (hword : headWord (.leaf l) = headWord (.leaf l'))
    (hbehind : behindWord (.leaf l) ++ rest = behindWord (.leaf l') ++ rest') :
  l = l' ∧ rest = rest'
  := by
  have hdot : ∀ {rest behind : Text}, Stops rest → rest ≠ '.' :: behind := by
    rintro rest behind hstops rfl
    exact Stops.not_cons (Or.inl rfl) behind hstops
  cases l with
  | primitive p =>
    cases l' with
    | primitive p' => exact ⟨congrArg Leaf.primitive (Primitive.text_injective hword), hbehind⟩
    | name n => exact absurd hword (p.text_ne n)
    | member module n => exact absurd hbehind (hdot hrest)
  | name n =>
    cases l' with
    | primitive p => exact absurd hword.symm (p.text_ne n)
    | name n' => exact ⟨congrArg Leaf.name (Name.chars_injective hword), hbehind⟩
    | member module n' => exact absurd hbehind (hdot hrest)
  | member module n =>
    cases l' with
    | primitive p => exact absurd hbehind.symm (hdot hrest')
    | name n' => exact absurd hbehind.symm (hdot hrest')
    | member module' n' =>
      obtain rfl := Name.chars_injective hword
      obtain ⟨hn, hrests⟩ := cut_word n.ident n'.ident hrest.not_ident hrest'.not_ident
        ((List.cons_inj_right _).mp hbehind)
      obtain rfl := Name.chars_injective hn
      exact ⟨rfl, hrests⟩

/-- A type is read from the start of a text in one way. -/
theorem typeText_append_injective {t t' : TypeName} {rest rest' : Text} (hrest : Stops rest)
    (hrest' : Stops rest') (h : typeText t ++ rest = typeText t' ++ rest') :
  t = t' ∧ rest = rest'
  := by
  have hcut : ∀ {t t' : TypeName} {rest rest' : Text}, Stops rest → Stops rest' →
      typeText t ++ rest = typeText t' ++ rest' →
        headWord t = headWord t' ∧ behindWord t ++ rest = behindWord t' ++ rest' := by
    intro t t' rest rest' hrest hrest' h
    rw [← headWord_append_behindWord, ← headWord_append_behindWord, List.append_assoc,
      List.append_assoc] at h
    exact cut_word (headWord_ident t) (headWord_ident t') (behindWord_not_ident t hrest)
      (behindWord_not_ident t' hrest') h
  induction t generalizing t' rest rest' with
  | leaf l =>
    obtain ⟨hword, hbehind⟩ := hcut hrest hrest' h
    cases t' with
    | leaf l' =>
      obtain ⟨rfl, hrests⟩ := leaf_injective hrest hrest' hword hbehind
      exact ⟨rfl, hrests⟩
    | unary c inner => exact absurd hbehind (behindWord_leaf_ne l hrest _)
    | binary p first second => exact absurd hbehind (behindWord_leaf_ne l hrest _)
  | unary c inner ih =>
    obtain ⟨hword, hbehind⟩ := hcut hrest hrest' h
    cases t' with
    | leaf l' => exact absurd hbehind.symm (behindWord_leaf_ne l' hrest' _)
    | unary c' inner' =>
      obtain rfl := Container.text_injective hword
      simp only [behindWord, List.cons_append, List.append_assoc, List.nil_append] at hbehind
      obtain ⟨rfl, hrests⟩ := ih (stops_closing rest) (stops_closing rest')
        ((List.cons_inj_right _).mp hbehind)
      exact ⟨rfl, (List.cons_inj_right _).mp hrests⟩
    | binary p first second => exact absurd hword (c.text_ne p)
  | binary p first second ih ih' =>
    obtain ⟨hword, hbehind⟩ := hcut hrest hrest' h
    cases t' with
    | leaf l' => exact absurd hbehind.symm (behindWord_leaf_ne l' hrest' _)
    | unary c inner => exact absurd hword.symm (c.text_ne p)
    | binary p' first' second' =>
      obtain rfl := Pairing.text_injective hword
      simp only [behindWord, List.cons_append, List.append_assoc, List.nil_append] at hbehind
      obtain ⟨rfl, hseconds⟩ := ih (stops_separator p _) (stops_separator p _)
        ((List.cons_inj_right _).mp hbehind)
      obtain ⟨rfl, hrests⟩ := ih' (stops_closing rest) (stops_closing rest')
        (List.append_cancel_left hseconds)
      exact ⟨rfl, (List.cons_inj_right _).mp hrests⟩

theorem typeText_injective {t t' : TypeName} (h : typeText t = typeText t') : t = t' := by
  have hnil : Stops [] := fun c hc => by cases hc
  apply (typeText_append_injective hnil hnil _).1
  rw [h]

/-! ### Canonical names -/

/-- The canonical name of a type has the module in front of its unqualified names and of nothing
else, is its own canonical name, and is the one the emitter has. -/
def IsCanonical (module : Text) (t : TypeName) : Prop :=
  Analyzer.canonicalTypeName (typeText t) module = qualifiedText module t ∧
    Analyzer.canonicalTypeName (Analyzer.canonicalTypeName (typeText t) module) module =
      Analyzer.canonicalTypeName (typeText t) module ∧
    Names.canonicalTypeName (typeText t) module = Analyzer.canonicalTypeName (typeText t) module

/-- What is inside of `REF` and `ARR` is a primitive type, a type of a module, a name but `Buffer` in
a module that does not look like a constructor, or another type with types of modules and without
unqualified names in it. -/
def CoreQualifies (module : Text) : TypeName → Prop
  | .unary .REF inner => CoreQualifies module inner
  | .unary .ARR inner => CoreQualifies module inner
  | .leaf (.name n) => n.chars ≠ "Buffer".toList ∧ startsWith module Container.REF.opening = false ∧
      startsWith module Container.ARR.opening = false
  | .leaf _ => True
  | t => t.leaves.any Leaf.isMember = true ∧ t.leaves.any Leaf.isName = false

theorem isCanonical_wrap {module : Text} {c : Container} (hc : c ≠ .TSK) (inner : TypeName) :
  IsCanonical module (.unary c inner) ↔ IsCanonical module inner
  := by
  have hwrap : ∀ {text text' : Text}, wrap c text = wrap c text' ↔ text = text' :=
    ⟨wrap_injective, congrArg _⟩
  have htext : typeText (.unary c inner) = wrap c (typeText inner) := rfl
  have hqualified : qualifiedText module (.unary c inner) = wrap c (qualifiedText module inner) := rfl
  rw [IsCanonical, IsCanonical, htext, hqualified]
  simp only [Analyzer.canonicalTypeName, Names.canonicalTypeName, canonicalWith_wrap hc, hwrap]

theorem isCore_typeText {t : TypeName} (h : IsCoreType t) : IsCore (typeText t) := by
  cases t with
  | leaf l => exact isCore_leaf l
  | unary c inner => exact isCore_composite ⟨h, fun l => nofun⟩
  | binary p first second => exact isCore_composite ⟨h, fun l => nofun⟩

theorem canonicalWith_nil (isNativeType : Text → Bool) (t : TypeName) :
  canonicalWith isNativeType [] (typeText t) = typeText t
  := by
  have hcore : ∀ {t : TypeName}, IsCoreType t →
      canonicalWith isNativeType [] (typeText t) = typeText t := by
    intro t ht
    rw [canonicalWith_core (isCore_typeText ht), inModule, if_pos rfl, ite_self]
  induction t with
  | leaf l => exact hcore trivial
  | binary p first second => exact hcore trivial
  | unary c inner ih =>
    cases c with
    | TSK => exact hcore trivial
    | ARR => exact (canonicalWith_wrap (by decide) _).trans (congrArg (wrap .ARR) ih)
    | REF => exact (canonicalWith_wrap (by decide) _).trans (congrArg (wrap .REF) ih)

/-- Without a module nothing is put in front of a name. -/
theorem isCanonical_nil (t : TypeName) : IsCanonical [] t := by
  have hqualified : qualifiedText [] t = typeText t := by
    apply render_congr
    intro l _
    cases l <;> rfl
  simp only [IsCanonical, Analyzer.canonicalTypeName, Names.canonicalTypeName, canonicalWith_nil,
    hqualified, true_and]

theorem isCanonical_composite {module : Text} (hmodule : module ≠ []) {t : TypeName}
    (h : IsComposite t) :
  IsCanonical module t ↔ t.leaves.any Leaf.isMember = true ∧ t.leaves.any Leaf.isName = false
  := by
  have hanalyzer := @canonicalWith_composite Analyzer.isNativeType module t h
    fun _ => bracket_not_mem_native.1
  have hemitter := @canonicalWith_composite Names.isNativeType module t h
    fun _ => bracket_not_mem_native.2
  rw [IsCanonical, Analyzer.canonicalTypeName, Names.canonicalTypeName, hanalyzer, hemitter]
  have hlength := length_qualifiedText hmodule t
  by_cases hmember : t.leaves.any Leaf.isMember = true
  · simp only [if_pos hmember, Analyzer.canonicalTypeName, hanalyzer]
    constructor
    · rintro ⟨hqualified, -⟩
      refine ⟨hmember, ?_⟩
      rw [Bool.eq_false_iff]
      intro hname
      have hcount : 0 < t.leaves.countP Leaf.isName :=
        List.countP_pos_iff.mpr (List.any_eq_true.mp hname)
      have hpos : 0 < t.leaves.countP Leaf.isName * (module.length + 1) :=
        Nat.mul_pos hcount (Nat.succ_pos _)
      rw [← hqualified] at hlength
      omega
    · rintro ⟨-, hname⟩
      exact ⟨(qualifiedText_eq module hname).symm, trivial, trivial⟩
  · rw [if_neg hmember, inModule, if_neg hmodule]
    refine ⟨?_, fun hboth => absurd hboth.1 hmember⟩
    rintro ⟨hqualified, -⟩
    exfalso
    by_cases hname : t.leaves.any Leaf.isName = true
    · obtain ⟨before, behind, htext, hdot, -, hleaf | hlt⟩ :=
        exists_behind_dot hmodule (Bool.eq_false_iff.mpr hmember) hname
      · obtain ⟨l, rfl⟩ := hleaf
        exact h.2 l rfl
      · have hdot' : '.' ∉ typeText t := by
          have hhas := hasDot_typeText t
          rw [Bool.eq_false_iff.mpr hmember] at hhas
          exact of_decide_eq_false hhas
        have hbehind := (Marks.append_mark_inj hdot' hdot (hqualified.trans htext)).2
        rw [hbehind] at hlt
        exact lt_irrefl _ hlt
    · have hzero : t.leaves.countP Leaf.isName = 0 := by
        rw [List.countP_eq_zero]
        exact List.any_eq_false.mp (Bool.eq_false_iff.mpr hname)
      rw [← hqualified, hzero] at hlength
      simp at hlength
      omega

theorem canonicalWith_leaf {isNativeType : Text → Bool} {module : Text} {l : Leaf}
    (h : l.isName = false) :
  canonicalWith isNativeType module l.text = l.text
  := by
  rw [canonicalWith_core (isCore_leaf l)]
  cases l with
  | primitive p => simp [Leaf.text, isPrimitiveType_text]
  | name n => cases h
  | member m n => simp [Leaf.text, hasDot]

theorem canonicalWith_name {isNativeType : Text → Bool} {module : Text} (n : Name) :
  canonicalWith isNativeType module n.chars =
    if isNativeType n.chars then n.chars else inModule module n.chars
  := by
  have hcore : IsCore n.chars := isCore_leaf (.name n)
  have hdot : hasDot n.chars = false := decide_eq_false n.dot_not_mem
  rw [canonicalWith_core hcore, n.not_isPrimitiveType, hdot]
  rfl

/-- What looks like a constructor is taken for one. -/
theorem exists_wrap_of_startsWith {isNativeType : Text → Bool} {module text : Text} {c : Container}
    (hc : c ≠ .TSK) (h : startsWith text c.opening = true) :
  ∃ inner, canonicalWith isNativeType module text = wrap c inner
  := by
  have hne : text ≠ [] := by
    rintro rfl
    cases c <;> cases h
  rw [canonicalWith, if_neg hne]
  cases c with
  | TSK => exact absurd rfl hc
  | REF => exact ⟨_, if_pos h⟩
  | ARR =>
    have hREF : startsWith text Container.REF.opening = false := by
      rw [Bool.eq_false_iff]
      intro hREF
      have hprefix := List.prefix_of_prefix_length_le (List.isPrefixOf_iff_prefix.mp h)
        (List.isPrefixOf_iff_prefix.mp hREF) (le_refl 4)
      exact absurd hprefix (by decide)
    rw [hREF, if_neg Bool.false_ne_true, if_pos h]
    exact ⟨_, rfl⟩

/-- No text of a constructor ends like a name. -/
theorem closing_ne (text module : Text) (n : Name) :
  text ++ [']'] ≠ n.chars ∧ text ++ [']'] ≠ module ++ '.' :: n.chars
  := by
  have hlast : n.chars.getLast? ≠ some ']' := by
    intro h
    have hmem := List.mem_of_getLast? h
    exact (isIdentChar_ne_sign (n.ident _ hmem)).2.2.1 rfl
  constructor
  · intro h
    rw [← h, List.getLast?_concat] at hlast
    exact hlast rfl
  · intro h
    have hends := congrArg List.getLast? h
    rw [List.getLast?_concat, List.getLast?_append_of_ne_nil _ (List.cons_ne_nil _ _),
      List.getLast?_cons_of_ne_nil n.ne_nil] at hends
    exact hlast hends.symm

/-- A text behind a module and a dot starts like the module. -/
theorem startsWith_module (c : Container) (module rest : Text) :
  startsWith (module ++ '.' :: rest) c.opening = startsWith module c.opening
  := by
  have hdot : '.' ∉ c.opening := by cases c <;> decide
  rw [Bool.eq_iff_iff, startsWith, startsWith, List.isPrefixOf_iff_prefix, List.isPrefixOf_iff_prefix]
  refine ⟨fun h => ?_, fun h => h.trans (List.prefix_append _ _)⟩
  by_cases hlength : c.opening.length ≤ module.length
  · exact List.prefix_of_prefix_length_le h (List.prefix_append _ _) hlength
  · exfalso
    apply hdot
    have hprefix : module ++ ['.'] <+: module ++ '.' :: rest := ⟨rest, by simp⟩
    apply (List.prefix_of_prefix_length_le hprefix h (by simp; omega)).subset
    exact List.mem_append_right _ (List.mem_singleton_self _)

/-- A name is native to the emitter if it is `Buffer`, and not to the analyzer. -/
theorem isNativeType_name (n : Name) :
  Analyzer.isNativeType n.chars = false ∧
    Names.isNativeType n.chars = decide (n.chars = "Buffer".toList)
  := by
  have hdot := n.dot_not_mem
  constructor
  · rw [Bool.eq_false_iff]
    intro h
    obtain ⟨native, hmem, hn⟩ := List.mem_map.mp (of_decide_eq_true h)
    rw [← hn] at hdot
    revert hdot
    fin_cases hmem <;> decide
  · have hbuf : n.chars ≠ "BUF.Buffer".toList := by
      intro h
      rw [h] at hdot
      revert hdot
      decide
    rw [Names.isNativeType, decide_eq_decide, List.map_cons, List.map_cons, List.map_nil, List.mem_cons,
      List.mem_singleton, or_iff_right hbuf]

theorem isCanonical_leaf {module : Text} (hmodule : module ≠ []) (l : Leaf) :
  IsCanonical module (.leaf l) ↔ CoreQualifies module (.leaf l)
  := by
  have htext : typeText (.leaf l) = l.text := rfl
  rw [IsCanonical, htext]
  cases hname : l.isName with
  | false =>
    have hqualified : qualifiedText module (.leaf l) = l.text :=
      qualifiedText_eq module (by simp [Term.leaves, hname])
    have hcore : CoreQualifies module (.leaf l) := by
      cases l with
      | name n => cases hname
      | _ => trivial
    simp [Analyzer.canonicalTypeName, Names.canonicalTypeName, canonicalWith_leaf hname, hqualified,
      hcore]
  | true =>
    cases l with
    | primitive p => cases hname
    | member m n => cases hname
    | name n =>
      obtain ⟨hanalyzer, hemitter⟩ := isNativeType_name n
      have hqualified : qualifiedText module (.leaf (.name n)) = module ++ '.' :: n.chars :=
        if_neg hmodule
      have hcanonical : Analyzer.canonicalTypeName n.chars module = module ++ '.' :: n.chars := by
        rw [Analyzer.canonicalTypeName, canonicalWith_name, hanalyzer, inModule, if_neg hmodule]
        rfl
      have hagain : Analyzer.canonicalTypeName (module ++ '.' :: n.chars) module =
          module ++ '.' :: n.chars ↔ startsWith module Container.REF.opening = false ∧
            startsWith module Container.ARR.opening = false := by
        rw [Analyzer.canonicalTypeName, ← startsWith_module .REF module n.chars,
          ← startsWith_module .ARR module n.chars]
        constructor
        · intro h
          constructor
          all_goals
            rw [Bool.eq_false_iff]
            intro hstart
            obtain ⟨inner, hinner⟩ := exists_wrap_of_startsWith (by decide) hstart
            exact (closing_ne _ module n).2 (hinner.symm.trans h)
        · rintro ⟨hREF, hARR⟩
          rw [canonicalWith_core ⟨by simp, hREF, hARR⟩]
          simp [hasDot]
      have hemit : Names.canonicalTypeName n.chars module = module ++ '.' :: n.chars ↔
          n.chars ≠ "Buffer".toList := by
        rw [Names.canonicalTypeName, canonicalWith_name, hemitter, inModule, if_neg hmodule]
        by_cases hbuffer : n.chars = "Buffer".toList
        · rw [if_pos (by simpa using hbuffer)]
          refine iff_of_false (fun h => ?_) (not_not_intro hbuffer)
          have hlength := congrArg List.length h
          simp at hlength
          omega
        · rw [if_neg (by simpa using hbuffer)]
          exact iff_of_true rfl hbuffer
      rw [Leaf.text, hcanonical, hqualified, hagain, hemit, CoreQualifies]
      tauto

/-- A canonical name is right if and only if there is no module, or what is inside of `REF` and `ARR`
is as it should be. -/
theorem isCanonical_iff (module : Text) (t : TypeName) :
  IsCanonical module t ↔ module = [] ∨ CoreQualifies module t
  := by
  by_cases hmodule : module = []
  · subst hmodule
    exact iff_of_true (isCanonical_nil t) (Or.inl rfl)
  rw [or_iff_right hmodule]
  induction t with
  | leaf l => exact isCanonical_leaf hmodule l
  | binary p first second => exact isCanonical_composite hmodule ⟨trivial, fun l => nofun⟩
  | unary c inner ih =>
    cases c with
    | TSK => exact isCanonical_composite hmodule ⟨trivial, fun l => nofun⟩
    | ARR => exact (isCanonical_wrap (by decide) inner).trans ih
    | REF => exact (isCanonical_wrap (by decide) inner).trans ih

end Caster.SelfHosting
