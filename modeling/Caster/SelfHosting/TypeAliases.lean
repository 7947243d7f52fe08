import Caster.SelfHosting.TypeNames

/-!
# Aliases of types of the self-hosted compiler

An alias is resolved one step, and only where it is the whole type.  Two type names with one full
expansion are assignable when such a step on either side makes them the same text.
-/

namespace Caster.SelfHosting

open Driver (Text isIdentChar)
open TypeTerms (Term)

variable (program : Program)

/-! ### The functions -/

/-- The name of a declaration, with its module in front. -/
def typeFullName (item : TypeDecl) : Text := inModule item.module.toList item.name.toList

/-- The first declaration with a name that is not one of a `MAP`. -/
def findAlias (typeName : Text) : Option TypeDecl :=
  program.types.find? fun e => typeFullName e = typeName ∧ e.kind ≠ .MAP

/-- What an alias is declared as, or the type itself. -/
def resolveAlias (typeName : Text) : Text :=
  match findAlias program typeName with
  | some e => Analyzer.canonicalTypeName e.typeName.toList e.module.toList
  | none => typeName

/-- The type of the elements of an array. -/
def arrayElementType (typeName : Text) : Text :=
  let concrete := resolveAlias program typeName
  if startsWith concrete Container.ARR.opening then stripContainer concrete else []

/-- The type a reference is one to. -/
def refTargetType (typeName : Text) : Text :=
  if startsWith typeName Container.REF.opening then stripContainer typeName else typeName

/-- A type may be given where another one is wanted. -/
def assignable (actual wanted : Text) : Bool :=
  if wanted = [] then true
  else if actual = [] then true
  else if actual = wanted then true
  else if actual = Primitive.NUL.text then true
  else if actual = Primitive.INT.text ∧ wanted = Primitive.FLT.text then true
  else if startsWith actual Container.REF.opening ∧ refTargetType actual = wanted then true
  else if actual = wrap .ARR ['?'] then true
  else if actual = ['O', 'P', 'E', 'N'] then true
  else false

/-- A type may be given where another one is wanted, when aliases are resolved. -/
def assignableKnown (actual wanted : Text) : Bool :=
  assignable actual wanted || assignable (resolveAlias program actual) wanted ||
    assignable actual (resolveAlias program wanted) ||
      assignable (resolveAlias program actual) (resolveAlias program wanted)

/-! ### Full expansion -/

/-- A declaration has a name, and is one of a type. -/
def IsWritten (e : TypeDecl) : Prop :=
  (∃ n : Name, e.name.toList = n.chars) ∧ ∃ t, e.typeName.toList = typeText t

/-- The declarations of aliases and values are read without errors. -/
def Written : Prop := ∀ e ∈ program.types, e.kind ≠ .MAP → IsWritten e

/-- The module of a leaf. -/
def Leaf.module : Leaf → Option Name
  | member module _ => some module
  | _ => none

/-- The text of a module. -/
def moduleText : Option Name → Text
  | some module => module.chars
  | none => []

/-- A leaf with a module in front of an unqualified name. -/
def Leaf.qualify : Option Name → Leaf → Leaf
  | some module, name n => member module n
  | _, l => l

/-- An alias stands for the type it is declared as, in its own module. -/
def StandsFor (l : Leaf) (t : TypeName) : Prop :=
  ∃ e t', findAlias program l.text = some e ∧ e.typeName.toList = typeText t' ∧
    t = t'.map (Leaf.qualify l.module)

/-- A type with its full expansion. -/
abbrev Expands : TypeName → TypeName → Prop := TypeTerms.Expands (StandsFor program)

/-! ### The condition -/

/-- The text of a type in a module: the module is in front of an unqualified name inside of `REF` and
`ARR`, and in front of any other type without types of modules. -/
def taggedText (module : Text) : TypeName → Text
  | .unary .REF inner => wrap .REF (taggedText module inner)
  | .unary .ARR inner => wrap .ARR (taggedText module inner)
  | .leaf l => l.qualifiedText module
  | t => if t.leaves.any Leaf.isMember then typeText t else inModule module (typeText t)

/-- The text of a type, or of what it is declared as when it is an alias. -/
def Outer (t : TypeName) (text : Text) : Prop :=
  text = typeText t ∨
    ∃ l e t', t = .leaf l ∧ findAlias program l.text = some e ∧ e.typeName.toList = typeText t' ∧
      text = taggedText e.module.toList t'

/-- The elements of a type are found: their type has an expansion. -/
def FindsElement (t e : TypeName) : Prop :=
  ∃ element, arrayElementType program (typeText t) = typeText element ∧ Expands program element e

variable {program}

/-! ### Aliases -/

theorem findAlias_some {typeName : Text} {e : TypeDecl} (h : findAlias program typeName = some e) :
  e ∈ program.types ∧ typeFullName e = typeName ∧ e.kind ≠ .MAP
  := by
  unfold findAlias at h
  have hfound := List.find?_some h
  rw [decide_eq_true_eq] at hfound
  exact ⟨List.mem_of_find?_eq_some h, hfound⟩

/-- An alias is declared in the module of its name, and is no primitive type. -/
theorem module_of_findAlias (hwritten : Written program) {l : Leaf} {e : TypeDecl}
    (h : findAlias program l.text = some e) :
  e.module.toList = moduleText l.module ∧ ∀ p, l ≠ .primitive p
  := by
  obtain ⟨hmem, hname, hkind⟩ := findAlias_some h
  obtain ⟨⟨n, hn⟩, -⟩ := hwritten e hmem hkind
  rw [typeFullName, inModule, hn] at hname
  split_ifs at hname with hmodule
  · rw [hmodule]
    cases l with
    | primitive p => exact absurd hname.symm (p.text_ne n)
    | name n' => exact ⟨rfl, fun p => Leaf.noConfusion⟩
    | member m n' =>
      have hdot := n.dot_not_mem
      rw [hname] at hdot
      exact absurd (by simp [Leaf.text]) hdot
  · have hdot : '.' ∈ l.text := by
      rw [← hname]
      simp
    cases l with
    | primitive p => exact absurd (dot_mem_leaf.mp hdot) (by simp [Leaf.isMember])
    | name n' => exact absurd hdot n'.dot_not_mem
    | member m n' =>
      exact ⟨(Marks.append_mark_inj n.dot_not_mem n'.dot_not_mem hname).1, fun p => Leaf.noConfusion⟩

theorem standsFor_unique {l : Leaf} {t t' : TypeName} (h : StandsFor program l t)
    (h' : StandsFor program l t') :
  t = t'
  := by
  obtain ⟨e, u, he, hu, rfl⟩ := h
  obtain ⟨e', u', he', hu', rfl⟩ := h'
  rw [he] at he'
  cases he'
  rw [typeText_injective (hu.symm.trans hu')]

theorem Expands.deterministic {t e e' : TypeName} (h : Expands program t e)
    (h' : Expands program t e') :
  e = e'
  := by
  have hunique : ∀ l t t', StandsFor program l t → StandsFor program l t' → t = t' :=
    fun _ _ _ => standsFor_unique
  exact TypeTerms.Expands.unique hunique h h'

/-- A type with a constructor is no alias. -/
theorem findAlias_eq_none (hwritten : Written program) {t : TypeName} (h : ∀ l, t ≠ .leaf l) :
  findAlias program (typeText t) = none
  := by
  obtain ⟨text, htext⟩ : ∃ text, typeText t = text ++ [']'] := by
    cases t with
    | leaf l => exact absurd rfl (h l)
    | unary c inner => exact ⟨_, rfl⟩
    | binary p first second =>
      refine ⟨p.text ++ '[' :: (typeText first ++ p.separator ++ typeText second), ?_⟩
      simp [typeText, render]
  cases hfound : findAlias program (typeText t) with
  | none => rfl
  | some e =>
    exfalso
    obtain ⟨hmem, hname, hkind⟩ := findAlias_some hfound
    obtain ⟨⟨n, hn⟩, -⟩ := hwritten e hmem hkind
    rw [typeFullName, inModule, hn, htext] at hname
    split_ifs at hname
    · exact (closing_ne text [] n).1 hname.symm
    · exact (closing_ne text _ n).2 hname.symm

/-- The canonical name of a type is its text in the module. -/
theorem canonicalTypeName_typeText (module : Text) (t : TypeName) :
  Analyzer.canonicalTypeName (typeText t) module = taggedText module t
  := by
  have hcomposite : ∀ {t : TypeName}, IsComposite t → Analyzer.canonicalTypeName (typeText t) module =
      if t.leaves.any Leaf.isMember then typeText t else inModule module (typeText t) :=
    fun h => canonicalWith_composite h fun _ => bracket_not_mem_native.1
  induction t with
  | leaf l =>
    cases l with
    | name n =>
      have hnative := (isNativeType_name n).1
      refine (canonicalWith_name n).trans ?_
      rw [hnative]
      rfl
    | primitive p => exact canonicalWith_leaf (l := .primitive p) rfl
    | member m n => exact canonicalWith_leaf (l := .member m n) rfl
  | binary p first second => exact hcomposite ⟨trivial, fun l => nofun⟩
  | unary c inner ih =>
    cases c with
    | TSK => exact hcomposite ⟨trivial, fun l => nofun⟩
    | ARR => exact (canonicalWith_wrap (by decide) _).trans (congrArg (wrap .ARR) ih)
    | REF => exact (canonicalWith_wrap (by decide) _).trans (congrArg (wrap .REF) ih)

/-- One step makes the second text of a type. -/
theorem outer_iff (hwritten : Written program) {t : TypeName} {text : Text} :
  Outer program t text ↔ text = typeText t ∨ text = resolveAlias program (typeText t)
  := by
  constructor
  · rintro (h | ⟨l, e, t', rfl, he, ht', rfl⟩)
    · exact Or.inl h
    · right
      have hfound : findAlias program (typeText (.leaf l)) = some e := he
      rw [resolveAlias, hfound]
      dsimp only
      rw [ht', canonicalTypeName_typeText]
  · rintro (h | rfl)
    · exact Or.inl h
    cases hfound : findAlias program (typeText t) with
    | none =>
      left
      rw [resolveAlias, hfound]
    | some e =>
      right
      obtain ⟨l, rfl⟩ : ∃ l, t = .leaf l := by
        by_contra hleaf
        rw [findAlias_eq_none hwritten (not_exists.mp hleaf)] at hfound
        cases hfound
      obtain ⟨hmem, -, hkind⟩ := findAlias_some hfound
      obtain ⟨-, t', ht'⟩ := hwritten e hmem hkind
      refine ⟨l, e, t', rfl, hfound, ht', ?_⟩
      rw [resolveAlias, hfound]
      dsimp only
      rw [ht', canonicalTypeName_typeText]

/-! ### Shapes of texts -/

/-- How often `REF` and `ARR` stand around a type. -/
def spineDepth : TypeName → ℕ
  | .unary .REF inner => spineDepth inner + 1
  | .unary .ARR inner => spineDepth inner + 1
  | _ => 0

/-- A text of a type with an expansion: `REF` and `ARR` around a leaf, or around what is no leaf and
neither of them. -/
inductive Shape (program : Program) : Text → TypeName → Prop where
  | leaf {text : Text} {l : Leaf} {e : TypeName} : text = l.text → Expands program (.leaf l) e →
      Shape program text e
  | composite {text : Text} {e : TypeName} : IsCore text → '[' ∈ text → IsCoreType e →
      Shape program text e
  | around {text inner : Text} {c : Container} {e : TypeName} : c ≠ .TSK → text = wrap c inner →
      Shape program inner e → Shape program text (.unary c e)

theorem shape_composite {t e : TypeName} (ht : IsComposite t) (he : IsCoreType e) :
  Shape program (typeText t) e
  := .composite (isCore_composite ht) (bracket_mem_typeText ht.2) he

theorem shape_typeText {t e : TypeName} (h : Expands program t e) : Shape program (typeText t) e := by
  induction t generalizing e with
  | leaf l => exact .leaf rfl h
  | binary p first second =>
    cases h with
    | binary h h' => exact shape_composite ⟨trivial, fun l => nofun⟩ trivial
  | unary c inner ih =>
    cases h with
    | unary h =>
      cases c with
      | TSK => exact shape_composite ⟨trivial, fun l => nofun⟩ trivial
      | ARR => exact .around (by decide) rfl (ih h)
      | REF => exact .around (by decide) rfl (ih h)

theorem Leaf.qualifiedText_eq (module : Option Name) (l : Leaf) :
  l.qualifiedText (moduleText module) = (l.qualify module).text
  := by
  cases l with
  | name n =>
    cases module with
    | none => rfl
    | some m => exact if_neg m.ne_nil
  | primitive p => cases module <;> rfl
  | member m n => cases module <;> rfl

/-- The text of a type in a module is taken for one name where it is no leaf. -/
theorem isCore_tagged {module : Option Name} {t : TypeName} (h : IsComposite t) :
  IsCore (taggedText (moduleText module) t) ∧ '[' ∈ taggedText (moduleText module) t
  := by
  have htagged : taggedText (moduleText module) t =
      if t.leaves.any Leaf.isMember then typeText t else inModule (moduleText module) (typeText t) := by
    cases t with
    | leaf l => exact absurd rfl (h.2 l)
    | binary p first second => rfl
    | unary c inner =>
      cases c with
      | TSK => rfl
      | ARR | REF => exact h.1.elim
  have hcore := isCore_composite h
  have hbracket := bracket_mem_typeText h.2
  rw [htagged]
  split_ifs
  · exact ⟨hcore, hbracket⟩
  · cases module with
    | none => exact ⟨hcore, hbracket⟩
    | some m =>
      have hm : IsCore m.chars := isCore_leaf (.name m)
      rw [inModule, moduleText, if_neg m.ne_nil]
      refine ⟨⟨by simp, ?_, ?_⟩, by simp [hbracket]⟩
      · rw [startsWith_module, hm.2.1]
      · rw [startsWith_module, hm.2.2]

theorem shape_taggedText {module : Option Name} {t e : TypeName}
    (h : Expands program (t.map (Leaf.qualify module)) e) :
  Shape program (taggedText (moduleText module) t) e
  := by
  have hcomposite : ∀ {t e : TypeName}, IsComposite t → IsCoreType e →
      Shape program (taggedText (moduleText module) t) e :=
    fun ht he => .composite (isCore_tagged ht).1 (isCore_tagged ht).2 he
  induction t generalizing e with
  | leaf l => exact .leaf (l.qualifiedText_eq module) h
  | binary p first second =>
    cases h with
    | binary h h' => exact hcomposite ⟨trivial, fun l => nofun⟩ trivial
  | unary c inner ih =>
    cases h with
    | unary h =>
      cases c with
      | TSK => exact hcomposite ⟨trivial, fun l => nofun⟩ trivial
      | ARR => exact .around (by decide) rfl (ih h)
      | REF => exact .around (by decide) rfl (ih h)

/-- The texts of a type have its expansion. -/
theorem shape_outer (hwritten : Written program) {t e : TypeName} {text : Text}
    (h : Expands program t e) (houter : Outer program t text) :
  Shape program text e
  := by
  rcases houter with rfl | ⟨l, item, t', rfl, hfound, ht', rfl⟩
  · exact shape_typeText h
  · rw [(module_of_findAlias hwritten hfound).1]
    apply shape_taggedText
    cases h with
    | leaf hnone => exact absurd ⟨item, t', hfound, ht', rfl⟩ (hnone _)
    | step hstep h =>
      rwa [standsFor_unique hstep ⟨item, t', hfound, ht', rfl⟩] at h

theorem bracket_mem_wrap (c : Container) (inner : Text) : '[' ∈ wrap c inner := by
  simp [wrap, Container.opening]

theorem not_isCore_wrap {c : Container} (hc : c ≠ .TSK) (inner : Text) : ¬ IsCore (wrap c inner) := by
  rintro ⟨-, hREF, hARR⟩
  rw [startsWith_wrap] at hREF hARR
  cases c with
  | TSK => exact hc rfl
  | REF => cases hREF
  | ARR => cases hARR

theorem Shape.ne_nil {text : Text} {e : TypeName} (h : Shape program text e) : text ≠ [] := by
  cases h with
  | leaf htext =>
    rw [htext]
    exact Leaf.text_ne_nil _
  | composite hcore => exact hcore.1
  | around _ htext =>
    rw [htext]
    exact wrap_ne_nil _ _

/-- A text of a constructor around a text. -/
theorem Shape.wrap_inv {text : Text} {c : Container} (hc : c ≠ .TSK) {e : TypeName}
    (h : Shape program text e) (hstart : startsWith text c.opening = true) :
  ∃ inner e', text = wrap c inner ∧ e = .unary c e' ∧ Shape program inner e'
  := by
  have hmem : '[' ∈ text := by
    apply (List.isPrefixOf_iff_prefix.mp hstart).subset
    exact List.mem_append_right _ (List.mem_singleton_self _)
  cases h with
  | leaf htext =>
    rw [htext] at hmem
    exact absurd hmem (Leaf.bracket_not_mem _)
  | composite hcore =>
    cases c with
    | TSK => exact absurd rfl hc
    | REF => exact absurd hstart (by simp [hcore.2.1])
    | ARR => exact absurd hstart (by simp [hcore.2.2])
  | @around _ inner c' e' hc' htext h =>
    rw [htext, startsWith_wrap, decide_eq_true_eq] at hstart
    subst hstart
    exact ⟨inner, e', htext, rfl, h⟩

/-- `REF` and `ARR` stand as often around all types with a text. -/
theorem Shape.depth_unique {text : Text} {e e' : TypeName} (h : Shape program text e)
    (h' : Shape program text e') :
  spineDepth e = spineDepth e'
  := by
  have hcore : ∀ {e : TypeName}, IsCoreType e → spineDepth e = 0 := by
    intro e he
    cases e with
    | leaf l => rfl
    | binary p first second => rfl
    | unary c inner =>
      cases c with
      | TSK => rfl
      | ARR | REF => exact he.elim
  induction h generalizing e' with
  | leaf htext h =>
    subst htext
    cases h' with
    | leaf htext h' =>
      have hleaf := @typeText_injective (.leaf _) (.leaf _) htext
      rw [Term.leaf.inj hleaf] at h
      rw [h.deterministic h']
    | composite _ hmem => exact absurd hmem (Leaf.bracket_not_mem _)
    | around _ htext => exact absurd (htext ▸ bracket_mem_wrap _ _) (Leaf.bracket_not_mem _)
  | composite hcore' hmem he =>
    cases h' with
    | leaf htext =>
      rw [htext] at hmem
      exact absurd hmem (Leaf.bracket_not_mem _)
    | composite _ _ he' => rw [hcore he, hcore he']
    | around hc htext =>
      rw [htext] at hcore'
      exact absurd hcore' (not_isCore_wrap hc _)
  | @around text inner c e hc htext h ih =>
    have hstart : startsWith text c.opening = true := by
      rw [htext, startsWith_wrap, decide_eq_true rfl]
    obtain ⟨inner', e₁, htext', rfl, h₁⟩ := h'.wrap_inv hc hstart
    rw [htext] at htext'
    obtain rfl := wrap_injective htext'
    cases c with
    | TSK => exact absurd rfl hc
    | ARR | REF => exact congrArg (· + 1) (ih h₁)

/-! ### Assignment -/

theorem Shape.primitive {p : Primitive} {e : TypeName} (hwritten : Written program)
    (h : Shape program p.text e) :
  e = .leaf (.primitive p)
  := by
  have hbracket : '[' ∉ p.text := Leaf.bracket_not_mem (.primitive p)
  cases h with
  | leaf htext h =>
    have hleaf := @typeText_injective (.leaf (.primitive p)) (.leaf _) htext
    rw [← Term.leaf.inj hleaf] at h
    cases h with
    | leaf => rfl
    | step hstep =>
      obtain ⟨item, t', hfound, -⟩ := hstep
      exact absurd rfl ((module_of_findAlias hwritten hfound).2 p)
  | composite _ hmem => exact absurd hmem hbracket
  | around _ htext =>
    rw [htext] at hbracket
    exact absurd (bracket_mem_wrap _ _) hbracket

/-- No type is a question mark. -/
theorem not_shape_question (e : TypeName) : ¬ Shape program ['?'] e := by
  intro h
  cases h with
  | @leaf _ l _ htext =>
    have hhead := headWord_append_behindWord (.leaf l)
    have htext' : headWord (.leaf l) ++ behindWord (.leaf l) = ['?'] := hhead.trans htext.symm
    cases hword : headWord (.leaf l) with
    | nil =>
      rw [hword, List.nil_append] at htext'
      cases l <;> cases htext'
    | cons c word =>
      have hident := headWord_ident (.leaf l) c (by simp [hword])
      rw [hword, List.cons_append] at htext'
      rw [(List.cons.inj htext').1] at hident
      revert hident
      decide
  | composite _ hmem => revert hmem; decide
  | around _ htext =>
    have hmem : '[' ∈ ['?'] := htext ▸ bracket_mem_wrap _ _
    revert hmem
    decide

/-- Of two texts with one expansion, one is assignable to the other when they are the same, or it is
`NUL` or `OPEN`. -/
theorem assignable_iff (hwritten : Written program) {actual wanted : Text} {e : TypeName}
    (hactual : Shape program actual e) (hwanted : Shape program wanted e) :
  assignable actual wanted = true ↔
    actual = wanted ∨ actual = Primitive.NUL.text ∨ actual = ['O', 'P', 'E', 'N']
  := by
  have hint : ¬ (actual = Primitive.INT.text ∧ wanted = Primitive.FLT.text) := by
    rintro ⟨rfl, rfl⟩
    have heq := (hactual.primitive hwritten).symm.trans (hwanted.primitive hwritten)
    cases heq
  have href : ¬ (startsWith actual Container.REF.opening = true ∧ refTargetType actual = wanted) := by
    rintro ⟨hstart, htarget⟩
    rw [refTargetType, if_pos hstart] at htarget
    obtain ⟨inner, e', rfl, rfl, h⟩ := hactual.wrap_inv (by decide) hstart
    rw [stripContainer_wrap] at htarget
    rw [htarget] at h
    exact absurd (h.depth_unique hwanted) (Nat.succ_ne_self _).symm
  have harr : actual ≠ SelfHosting.wrap .ARR ['?'] := by
    rintro rfl
    obtain ⟨inner, e', htext, -, h⟩ := hactual.wrap_inv (c := .ARR) (by decide) rfl
    rw [← wrap_injective htext] at h
    exact not_shape_question e' h
  unfold assignable
  rw [if_neg hwanted.ne_nil, if_neg hactual.ne_nil, if_neg hint, if_neg href, if_neg harr]
  split_ifs with heq hnul hopen
  · simp [heq]
  · simp [hnul]
  · simp [hopen]
  · simp [heq, hnul, hopen]

/-- Two types with one expansion are assignable when one step on either side makes them the same, or
makes the first one `NUL` or `OPEN`. -/
theorem assignableKnown_iff (hwritten : Written program) {actual wanted e : TypeName}
    (hactual : Expands program actual e) (hwanted : Expands program wanted e) :
  assignableKnown program (typeText actual) (typeText wanted) = true ↔
    ∃ text, Outer program actual text ∧
      (Outer program wanted text ∨ text = Primitive.NUL.text ∨ text = ['O', 'P', 'E', 'N'])
  := by
  have hiff : ∀ {text text' : Text}, Outer program actual text → Outer program wanted text' →
      (assignable text text' = true ↔
        text = text' ∨ text = Primitive.NUL.text ∨ text = ['O', 'P', 'E', 'N']) :=
    fun h h' => assignable_iff hwritten (shape_outer hwritten hactual h)
      (shape_outer hwritten hwanted h')
  have hself : ∀ t, Outer program t (typeText t) := fun t => Or.inl rfl
  have hresolved : ∀ t, Outer program t (resolveAlias program (typeText t)) :=
    fun t => (outer_iff hwritten).mpr (Or.inr rfl)
  simp only [assignableKnown, Bool.or_eq_true]
  rw [hiff (hself _) (hself _), hiff (hresolved _) (hself _), hiff (hself _) (hresolved _),
    hiff (hresolved _) (hresolved _)]
  constructor
  · have hcommon : ∀ {text text' : Text}, Outer program actual text → Outer program wanted text' →
        text = text' ∨ text = Primitive.NUL.text ∨ text = ['O', 'P', 'E', 'N'] →
          ∃ text, Outer program actual text ∧
            (Outer program wanted text ∨ text = Primitive.NUL.text ∨ text = ['O', 'P', 'E', 'N']) := by
      rintro text text' h h' (rfl | hspecial)
      · exact ⟨text, h, Or.inl h'⟩
      · exact ⟨text, h, Or.inr hspecial⟩
    rintro (((h | h) | h) | h)
    · exact hcommon (hself _) (hself _) h
    · exact hcommon (hresolved _) (hself _) h
    · exact hcommon (hself _) (hresolved _) h
    · exact hcommon (hresolved _) (hresolved _) h
  · rintro ⟨text, h, h'⟩
    rw [outer_iff hwritten] at h h'
    rcases h with rfl | rfl
    · rcases h' with (h' | h') | h'
      · exact Or.inl (Or.inl (Or.inl (Or.inl h')))
      · exact Or.inl (Or.inr (Or.inl h'))
      · exact Or.inl (Or.inl (Or.inl (Or.inr h')))
    · rcases h' with (h' | h') | h'
      · exact Or.inl (Or.inl (Or.inr (Or.inl h')))
      · exact Or.inr (Or.inl h')
      · exact Or.inl (Or.inl (Or.inr (Or.inr h')))

/-- The elements of an array are found when one step makes it an array of a type. -/
theorem findsElement_iff (hwritten : Written program) {t e : TypeName}
    (h : Expands program t (.unary .ARR e)) :
  FindsElement program t e ↔
    ∃ element, Outer program t (wrap .ARR (typeText element)) ∧ Expands program element e
  := by
  have hshape := shape_outer hwritten h ((outer_iff hwritten).mpr (Or.inr rfl))
  constructor
  · rintro ⟨element, helement, hexpands⟩
    refine ⟨element, (outer_iff hwritten).mpr (Or.inr ?_), hexpands⟩
    dsimp only [arrayElementType] at helement
    split_ifs at helement with hstart
    · obtain ⟨inner, e', htext, -, -⟩ := hshape.wrap_inv (by decide) hstart
      rw [htext, stripContainer_wrap] at helement
      rw [htext, helement]
    · exact absurd helement.symm (shape_typeText hexpands).ne_nil
  · rintro ⟨element, houter, hexpands⟩
    refine ⟨element, ?_, hexpands⟩
    have hresolved : resolveAlias program (typeText t) = wrap .ARR (typeText element) := by
      rcases (outer_iff hwritten).mp houter with htext | htext
      · obtain rfl := @typeText_injective t (.unary .ARR element) htext.symm
        have hnone : findAlias program (typeText (.unary .ARR element)) = none := by
          apply findAlias_eq_none hwritten
          exact fun l => nofun
        rw [resolveAlias, hnone]
        rfl
      · exact htext.symm
    rw [arrayElementType, hresolved]
    exact stripContainer_wrap .ARR (typeText element)

/-- Where no alias is used in what it stands for, every type has a full expansion. -/
theorem exists_expands (hacyclic : WellFounded (TypeTerms.UsedIn (StandsFor program))) (t : TypeName) :
  ∃ e, Expands program t e
  := TypeTerms.exists_expands hacyclic t

/-- A canonical name is right if and only if there is no module, or what is inside of `REF` and `ARR`
is as it should be; two types with one expansion are assignable, and the elements of an array are
found, if and only if one step at the whole type is enough. -/
theorem typeNames_iff (module : Text) (t : TypeName) (hwritten : Written program)
    {actual wanted e array element : TypeName} (hactual : Expands program actual e)
    (hwanted : Expands program wanted e) (harray : Expands program array (.unary .ARR element)) :
  (IsCanonical module t ↔ module = [] ∨ CoreQualifies module t) ∧
    (assignableKnown program (typeText actual) (typeText wanted) = true ↔
      ∃ text, Outer program actual text ∧
        (Outer program wanted text ∨ text = Primitive.NUL.text ∨ text = ['O', 'P', 'E', 'N'])) ∧
    (FindsElement program array element ↔
      ∃ inner, Outer program array (wrap .ARR (typeText inner)) ∧ Expands program inner element)
  := ⟨isCanonical_iff module t, assignableKnown_iff hwritten hactual hwanted,
    findsElement_iff hwritten harray⟩

/-- The name `Id`. -/
def idName : Name where
  chars := ['I', 'd']
  ne_nil := by decide
  ident := List.all_eq_true.mp rfl
  kind := by decide

/-- The name `Key`. -/
def keyName : Name where
  chars := ['K', 'e', 'y']
  ne_nil := by decide
  ident := List.all_eq_true.mp rfl
  kind := by decide

/-- The name `Ids`. -/
def idsName : Name where
  chars := ['I', 'd', 's']
  ne_nil := by decide
  ident := List.all_eq_true.mp rfl
  kind := by decide

/-- The program of `TYPE Id = INT`, `TYPE Key = Id` and `TYPE Ids = ARR[Key]`. -/
def aliasProgram : Program where
  types := [
    { kind := .TYPE, name := "Id", typeName := "INT", span := ⟨1, 1, 1, 5⟩ },
    { kind := .TYPE, name := "Key", typeName := "Id", span := ⟨2, 1, 2, 5⟩ },
    { kind := .TYPE, name := "Ids", typeName := "ARR[Key]", span := ⟨3, 1, 3, 5⟩ }]

theorem written_aliasProgram : Written aliasProgram := by
  intro e he _
  simp only [aliasProgram, List.mem_cons, List.not_mem_nil, or_false] at he
  rcases he with rfl | rfl | rfl
  · exact ⟨⟨idName, rfl⟩, .leaf (.primitive .INT), rfl⟩
  · exact ⟨⟨keyName, rfl⟩, .leaf (.name idName), rfl⟩
  · exact ⟨⟨idsName, rfl⟩, .unary .ARR (.leaf (.name keyName)), rfl⟩

theorem expands_int : Expands aliasProgram (.leaf (.primitive .INT)) (.leaf (.primitive .INT)) := by
  apply TypeTerms.Expands.leaf
  rintro t ⟨e, t', hfound, -⟩
  exact (module_of_findAlias written_aliasProgram hfound).2 _ rfl

theorem expands_id : Expands aliasProgram (.leaf (.name idName)) (.leaf (.primitive .INT)) :=
  .step ⟨_, .leaf (.primitive .INT), rfl, rfl, rfl⟩ expands_int

theorem expands_key : Expands aliasProgram (.leaf (.name keyName)) (.leaf (.primitive .INT)) :=
  .step ⟨_, .leaf (.name idName), rfl, rfl, rfl⟩ expands_id

theorem expands_ids :
  Expands aliasProgram (.leaf (.name idsName)) (.unary .ARR (.leaf (.primitive .INT)))
  := .step ⟨_, .unary .ARR (.leaf (.name keyName)), rfl, rfl, rfl⟩ (.unary expands_key)

/-- `ARR[Id]` in the module `M`, `Id` for `INT`, and the elements of `Ids`. -/
theorem typeNames_id :
  IsCanonical ['M'] (.unary .ARR (.leaf (.name idName))) ∧
    assignableKnown aliasProgram ['I', 'd'] ['I', 'N', 'T'] = true ∧
    FindsElement aliasProgram (.leaf (.name idsName)) (.leaf (.primitive .INT))
  := by
  obtain ⟨hcanonical, hassignable, hfinds⟩ := typeNames_iff ['M'] (.unary .ARR (.leaf (.name idName)))
    written_aliasProgram expands_id expands_int expands_ids
  refine ⟨hcanonical.mpr (Or.inr ⟨by decide, rfl, rfl⟩), hassignable.mpr ?_, hfinds.mpr ?_⟩
  · refine ⟨['I', 'N', 'T'], Or.inr ?_, Or.inl (Or.inl rfl)⟩
    exact ⟨.name idName, _, .leaf (.primitive .INT), rfl, rfl, rfl, rfl⟩
  · refine ⟨.leaf (.name keyName), Or.inr ?_, expands_key⟩
    exact ⟨.name idsName, _, .unary .ARR (.leaf (.name keyName)), rfl, rfl, rfl, rfl⟩

/-- How many steps a leaf is from its full expansion in the program. -/
def aliasRank (text : Text) : ℕ :=
  (([['I', 'd'], ['K', 'e', 'y'], ['I', 'd', 's']].zipIdx 1).lookup text).getD 0

theorem acyclic_aliasProgram : WellFounded (TypeTerms.UsedIn (StandsFor aliasProgram)) := by
  have hlt : ∀ l l', TypeTerms.UsedIn (StandsFor aliasProgram) l l' →
      aliasRank l.text < aliasRank l'.text := by
    rintro l l' ⟨t, ⟨e, t', hfound, ht', rfl⟩, hl⟩
    obtain ⟨hmem, hname, -⟩ := findAlias_some hfound
    have hmodule := (module_of_findAlias written_aliasProgram hfound).1
    have hleaf : ∀ {used : Leaf}, e.module = "" → t'.leaves = [used] → l.text = used.text := by
      intro used he hleaves
      rw [he] at hmodule
      rw [Term.leaves_map, hleaves, List.map_singleton, List.mem_singleton] at hl
      cases hnone : l'.module with
      | none =>
        rw [hl, hnone]
        cases used <;> rfl
      | some m =>
        rw [hnone] at hmodule
        exact absurd hmodule.symm m.ne_nil
    simp only [aliasProgram, List.mem_cons, List.not_mem_nil, or_false] at hmem
    rcases hmem with rfl | rfl | rfl
    · obtain rfl := @typeText_injective t' (.leaf (.primitive .INT)) ht'.symm
      rw [← hname, hleaf rfl rfl]
      decide
    · obtain rfl := @typeText_injective t' (.leaf (.name idName)) ht'.symm
      rw [← hname, hleaf rfl rfl]
      decide
    · obtain rfl := @typeText_injective t' (.unary .ARR (.leaf (.name keyName))) ht'.symm
      rw [← hname, hleaf rfl rfl]
      decide
  exact Subrelation.wf (hlt _ _) (InvImage.wf (fun l : Leaf => aliasRank l.text) wellFounded_lt)

/-- `MAP[STR, Id]` in the module `M` gets the module in front of it, and in the program `Key` is not
assignable to `INT`. -/
theorem not_typeNames :
  ¬ IsCanonical ['M'] (.binary .MAP (.leaf (.primitive .STR)) (.leaf (.name idName))) ∧
    ¬ ∀ program, Written program → WellFounded (TypeTerms.UsedIn (StandsFor program)) →
      (∀ actual wanted e, Expands program actual e → Expands program wanted e →
          assignableKnown program (typeText actual) (typeText wanted) = true) ∧
        ∀ t e, Expands program t (.unary .ARR e) → FindsElement program t e
  := by
  constructor
  · intro h
    rcases (isCanonical_iff _ _).mp h with hnil | ⟨hmember, -⟩
    · cases hnil
    · cases hmember
  · intro h
    have hassignable := (h aliasProgram written_aliasProgram acyclic_aliasProgram).1 _ _ _ expands_key
      expands_int
    obtain ⟨text, hkey, hint⟩ :=
      (assignableKnown_iff written_aliasProgram expands_key expands_int).mp hassignable
    have htext : text = ['K', 'e', 'y'] ∨ text = ['I', 'd'] := by
      rcases hkey with rfl | ⟨l, e, t', hl, hfound, ht', rfl⟩
      · exact Or.inl rfl
      · cases hl
        cases hfound
        obtain rfl := @typeText_injective t' (.leaf (.name idName)) ht'.symm
        exact Or.inr rfl
    have htext' : text = ['I', 'N', 'T'] ∨ text = Primitive.NUL.text ∨ text = ['O', 'P', 'E', 'N'] := by
      rcases hint with (rfl | ⟨l, e, t', hl, hfound, -⟩) | hint
      · exact Or.inl rfl
      · cases hl
        cases hfound
      · exact Or.inr hint
    rcases htext with rfl | rfl <;> revert htext' <;> decide

end Caster.SelfHosting
