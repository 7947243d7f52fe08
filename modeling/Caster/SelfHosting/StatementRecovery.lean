import Caster.SelfHosting.Recovery

/-!
# The parser of programs written in Caster ends

Types, statements and declarations move forward as expressions do, and a program is returned
with every token passed.
-/

namespace Caster.SelfHosting

section

variable {tokens : List Token} {lo : ℕ} (htokens : EndsWithEof tokens)

include htokens

/-! ### Types -/

section

variable {self : Parser String} (hself : Forward tokens (lo + 1) self)

omit hself in
theorem forward_parseSimpleName : Forward tokens lo parseSimpleName := by
  apply (forward_expect htokens _ _).bind
  intro first
  apply moves_match htokens (by decide)
  · exact (forward_expect htokens _ _).bind fun _ => onward_pure _
  · exact onward_pure _

include hself

theorem moves_parseTypeArgument {far : String → Bool} (tok : Token) :
  Moves tokens true far lo (parseTypeArgument self tok)
  := by
  apply (forward_advance htokens).bind_succ
  intro _
  apply Moves.bind (forward_expect htokens _ _).onward
  intro _
  apply Moves.bind hself.onward
  intro inner
  exact (forward_expect htokens _ _).bind fun _ => onward_pure _

theorem moves_parseMapType {far : String → Bool} : Moves tokens true far lo (parseMapType self) := by
  apply (forward_advance htokens).bind_succ
  intro _
  apply Moves.bind (forward_expect htokens _ _).onward
  intro _
  apply Moves.bind hself.onward
  intro key
  apply Moves.bind (forward_expect htokens _ _).onward
  intro _
  apply Moves.bind hself.onward
  intro value
  exact (forward_expect htokens _ _).bind fun _ => onward_pure _

theorem moves_parseFnType {far : String → Bool} : Moves tokens true far lo (parseFnType self) := by
  apply (forward_advance htokens).bind_succ
  intro _
  apply Moves.bind (forward_expect htokens _ _).onward
  intro _
  apply Moves.bind hself.onward
  intro input
  apply Moves.bind (forward_expect htokens _ _).onward
  intro _
  apply Moves.bind hself.onward
  intro output
  exact (forward_expect htokens _ _).bind fun _ => onward_pure _

omit hself in
theorem forward_parseMissingType (tok : Token) : Forward tokens lo (parseMissingType tok) := by
  apply Moves.bind (onward_addError tok _)
  intro _
  exact (forward_advance htokens).bind fun _ => onward_pure _

theorem forward_parseTypeBody : Forward tokens lo (parseTypeBody self) := by
  apply moves_current htokens
  · intro tok _
    split_ifs
    · exact (forward_advance htokens).bind fun _ => onward_pure _
    · split
      · exact (forward_parseSimpleName htokens).anywhere
      · exact moves_parseTypeArgument htokens hself tok
      · exact moves_parseTypeArgument htokens hself tok
      · exact moves_parseTypeArgument htokens hself tok
      · exact moves_parseMapType htokens hself
      · exact moves_parseFnType htokens hself
      · exact (forward_parseMissingType htokens tok).anywhere
  · intro tok hkind
    have hprimitive : isPrimitive tok.kind = false := by
      rw [hkind]
      rfl
    rw [if_neg (by simp [hprimitive]), hkind]
    exact (forward_parseMissingType htokens tok).onward

end

theorem forward_parseTypeName : Forward tokens lo parseTypeName := by
  intro s hs hlo hlive
  have hfix := @forward_fix _ Unit tokens (fun n _ => fixTypeName n)
    (fun n lo hself _ => forward_parseTypeBody htokens (hself ())) (s.tokens.length + 1) lo
    (by rw [hs.tokens_eq]; omega) ()
  obtain ⟨a, s', hgives, hmoves⟩ := hfix s hs hlo hlive
  exact ⟨a, s', hgives, hmoves⟩

/-! ### Statements -/

theorem forward_parseValue : Forward tokens lo parseValue := forward_parse htokens lo _

theorem onward_parseReturnType : Onward tokens lo parseReturnType := by
  apply moves_match htokens (by decide)
  · exact (forward_parseTypeName htokens).onward
  · exact onward_pure _

theorem passes_parseParam (params : List ParamDecl) : Passes tokens lo (parseParam params) := by
  have hskip := @onward_skipNewlines tokens lo htokens
  apply passes_atEnd htokens
  apply moves_at htokens (by decide)
  · exact moves_pure rfl
  apply moves_current_live htokens
  intro start _
  apply (forward_parseTypeName htokens).bind
  intro typeName
  apply Moves.bind (forward_expect htokens _ _).onward
  intro name
  apply Moves.bind hskip
  intro _
  apply moves_match htokens (by decide)
  · exact onward_pure _
  · exact Moves.bind hskip fun _ => onward_pure _

theorem onward_parseParamList : Onward tokens lo parseParamList := by
  apply Moves.bind (onward_skipNewlines htokens)
  intro _
  apply Moves.bind (onward_loop (passes_parseParam htokens) [])
  intro params
  exact (forward_expect htokens _ _).bind fun _ => onward_pure _

theorem forward_parseReturn : Forward tokens lo parseReturn := by
  apply (forward_expect htokens _ _).bind
  intro start
  apply onward_current htokens
  intro tok
  split_ifs
  · exact onward_pure _
  · exact (forward_parseValue htokens).bind fun _ => onward_pure _

theorem forward_parsePass : Forward tokens lo parsePass :=
  (forward_expect htokens _ _).bind fun _ => onward_pure _

theorem forward_parseThrow : Forward tokens lo parseThrow := by
  apply (forward_expect htokens _ _).bind
  intro start
  apply Moves.bind (forward_expect htokens _ _).onward
  intro _
  apply Moves.bind (forward_parseValue htokens).onward
  intro value
  exact (forward_expect htokens _ _).bind fun _ => onward_pure _

theorem forward_parseFree : Forward tokens lo parseFree := by
  apply (forward_expect htokens _ _).bind
  intro start
  exact (forward_parseValue htokens).bind fun _ => onward_pure _

theorem forward_parseLocalDecl : Forward tokens lo parseLocalDecl := by
  have hrest (start : Token) : Forward tokens lo (do
      let typeName ← parseTypeName
      let name ← expect .NAME "expected local name"
      if ← matchKind .EQUAL then
        let value ← parseValue
        pure ({ kind := .var, name := name.lexeme, typeName, op := "=", value := some value,
                span := start.span } : Stmt)
      else pure { kind := .var, name := name.lexeme, typeName, span := start.span }) := by
    apply (forward_parseTypeName htokens).bind
    intro typeName
    apply Moves.bind (forward_expect htokens _ _).onward
    intro name
    apply moves_match htokens (by decide)
    · exact (forward_parseValue htokens).bind fun _ => onward_pure _
    · exact onward_pure _
  exact moves_current htokens (fun tok _ => (hrest tok).anywhere) fun tok _ => (hrest tok).onward

/-- What may be behind the target of an assignment. -/
theorem onward_assigned (start : Token) (target : Expr) :
  Onward tokens lo (do
    let tok ← current
    match assignmentOp tok.kind with
    | none => pure { kind := .expr, value := some target, span := start.span }
    | some op => do
      let _ ← advance
      if op = "++" then
        pure { kind := .assign, op, target := some target, span := start.span }
      else
        let value ← parseValue
        pure { kind := .assign, op, target := some target, value := some value, span := start.span } :
      Parser Stmt)
  := by
  apply onward_current htokens
  intro tok
  split
  · exact onward_pure _
  · apply (forward_advance htokens).bind
    intro _
    split_ifs
    · exact onward_pure _
    · exact (forward_parseValue htokens).bind fun _ => onward_pure _

theorem forward_parseAssignmentOrExpression : Forward tokens lo parseAssignmentOrExpression := by
  have hvalue := @forward_parseValue tokens lo htokens
  apply moves_current htokens
  · intro start _
    exact hvalue.bind fun target => onward_assigned htokens start target
  · intro start _
    exact hvalue.bind fun target => onward_assigned htokens start target

section

variable {self : Parser Stmt}

theorem passes_parseItem (hself : Forward tokens lo self) (closeKind : Kind)
    (statements : List Stmt) :
  Passes tokens lo (parseItem self closeKind statements)
  := by
  have hskip := @onward_skipNewlines tokens lo htokens
  apply passes_atEnd htokens
  apply (looks_atKind htokens _).moves_if
  · exact moves_pure rfl
  apply hself.bind
  intro item
  apply Moves.bind hskip
  intro _
  apply moves_match htokens (by decide)
  · exact Moves.bind hskip fun _ => onward_pure _
  · exact onward_pure _

theorem onward_parseBlock (hself : Forward tokens lo self) (closeKind : Kind) :
  Onward tokens lo (parseBlock self closeKind)
  := by
  apply Moves.bind (onward_skipNewlines htokens)
  exact fun _ => onward_loop (passes_parseItem htokens hself _) []

theorem onward_parseCondition (openMessage closeMessage : String) :
  Onward tokens lo (parseCondition openMessage closeMessage)
  := by
  apply (forward_expect htokens _ _).bind
  intro _
  apply Moves.bind (forward_parseValue htokens).onward
  intro condition
  exact (forward_expect htokens _ _).bind fun _ => onward_pure _

theorem onward_parseParenBlock (hself : Forward tokens lo self) (openMessage closeMessage : String) :
  Onward tokens lo (parseParenBlock self openMessage closeMessage)
  := by
  apply (forward_expect htokens _ _).bind
  intro _
  apply Moves.bind (onward_parseBlock htokens hself _)
  intro body
  exact (forward_expect htokens _ _).bind fun _ => onward_pure _

theorem passes_parseElx (hself : Forward tokens lo self) (branches : List Stmt) :
  Passes tokens lo (parseElx self branches)
  := by
  apply passes_at htokens (by decide)
  apply (forward_advance htokens).bind
  intro start
  apply Moves.bind (onward_parseCondition htokens _ _)
  intro condition
  apply Moves.bind (onward_parseParenBlock htokens hself _ _)
  intro body
  exact Moves.bind (onward_skipNewlines htokens) fun _ => onward_pure _

theorem onward_parseElse (hself : Forward tokens lo self) (branches : List Stmt) :
  Onward tokens lo (parseElse self branches)
  := by
  apply moves_at htokens (by decide)
  · apply (forward_advance htokens).bind
    intro start
    exact Moves.bind (onward_parseParenBlock htokens hself _ _) fun _ => onward_pure _
  · exact onward_pure _

theorem onward_parseAlias : Onward tokens lo parseAlias := by
  apply moves_match htokens (by decide)
  · exact (forward_expect htokens _ _).bind fun _ => onward_pure _
  · exact onward_pure _

variable (hself : Forward tokens (lo + 1) self)

include hself

theorem moves_parseIf {far : Stmt → Bool} : Moves tokens true far lo (parseIf self) := by
  apply (forward_expect htokens _ _).bind_succ
  intro start
  apply Moves.bind (onward_parseCondition htokens _ _)
  intro condition
  apply Moves.bind (onward_parseParenBlock htokens hself _ _)
  intro body
  apply Moves.bind (onward_skipNewlines htokens)
  intro _
  apply Moves.bind (onward_loop (passes_parseElx htokens hself) [])
  intro branches
  exact Moves.bind (onward_parseElse htokens hself branches) fun _ => onward_pure _

theorem moves_parseLoop {far : Stmt → Bool} : Moves tokens true far lo (parseLoop self) := by
  apply (forward_expect htokens _ _).bind_succ
  intro start
  apply Moves.bind (forward_expect htokens _ _).onward
  intro _
  apply Moves.bind (forward_parseValue htokens).onward
  intro source
  apply Moves.bind (onward_parseAlias htokens)
  intro name
  apply Moves.bind (forward_expect htokens _ _).onward
  intro _
  exact Moves.bind (onward_parseParenBlock htokens hself _ _) fun _ => onward_pure _

theorem moves_parseNestedFn {far : Stmt → Bool} : Moves tokens true far lo (parseNestedFn self) := by
  apply (forward_expect htokens _ _).bind_succ
  intro start
  apply Moves.bind (forward_expect htokens _ _).onward
  intro name
  apply Moves.bind (forward_expect htokens _ _).onward
  intro _
  apply Moves.bind (onward_parseParamList htokens)
  intro params
  apply Moves.bind (onward_parseReturnType htokens)
  intro returnType
  apply Moves.bind (forward_expect htokens _ _).onward
  intro _
  exact Moves.bind (onward_parseParenBlock htokens hself _ _) fun _ => onward_pure _

omit hself in
theorem looks_startsLocalDecl : Looks tokens startsLocalDecl := by
  apply (looks_current htokens).bind
  intro first
  apply (looks_peek htokens _).bind
  intro second
  apply (looks_peek htokens _).bind
  intro third
  exact (looks_peek htokens _).bind fun _ => looks_pure _

theorem forward_parseStatementBody : Forward tokens lo (parseStatementBody self) := by
  apply moves_at htokens (by decide)
  · exact (forward_parseReturn htokens).anywhere
  apply moves_at htokens (by decide)
  · exact moves_parseIf htokens hself
  apply moves_at htokens (by decide)
  · exact moves_parseLoop htokens hself
  apply moves_at htokens (by decide)
  · exact (forward_parsePass htokens).anywhere
  apply moves_at htokens (by decide)
  · exact (forward_parseThrow htokens).anywhere
  apply moves_at htokens (by decide)
  · exact (forward_parseFree htokens).anywhere
  apply moves_at htokens (by decide)
  · exact moves_parseNestedFn htokens hself
  apply Moves.bind (looks_startsLocalDecl htokens).onward
  intro decl
  split_ifs
  · exact forward_parseLocalDecl htokens
  · exact forward_parseAssignmentOrExpression htokens

end

theorem forward_fixStatement (n : ℕ) (hn : tokens.length + 1 ≤ lo + n) : Forward tokens lo (fixStatement n) := by
  induction n generalizing lo with
  | zero =>
    intro s hs hlo _
    have := hs.pos_le
    omega
  | succ n ih =>
    have hself : Forward tokens (lo + 1) (fixStatement n) := ih (by omega)
    rw [fixStatement]
    exact forward_parseStatementBody htokens hself

theorem forward_parseStatement : Forward tokens lo parseStatement := by
  intro s hs hlo hlive
  have hfix := @forward_fixStatement tokens lo htokens (s.tokens.length + 1)
    (by rw [hs.tokens_eq]; omega)
  obtain ⟨a, s', hgives, hmoves⟩ := hfix s hs hlo hlive
  refine ⟨a, s', ?_, hmoves⟩
  rw [Gives, parseStatement]
  exact hgives

/-! ### Declarations -/

theorem passes_capturePass (closeKind : Kind) (state : String × ℤ) :
  Passes tokens lo (capturePass closeKind state)
  := by
  apply passes_atEnd htokens
  apply moves_current_live htokens
  intro tok _
  split_ifs
  · exact moves_pure rfl
  · exact (forward_advance htokens).bind fun _ => onward_pure _

theorem onward_captureUntilBoundary (closeKind : Kind) :
  Onward tokens lo (captureUntilBoundary closeKind)
  := onward_loop (passes_capturePass htokens closeKind) _

theorem passes_balancedPass (openKind closeKind : Kind) (state : String × ℤ) :
  Passes tokens lo (balancedPass openKind closeKind state)
  := by
  apply passes_atEnd htokens
  apply moves_current_live htokens
  intro tok _
  apply (forward_advance htokens).bind
  intro _
  split_ifs <;> exact onward_pure _

theorem onward_captureBalanced (openKind closeKind : Kind) :
  Onward tokens lo (captureBalanced openKind closeKind)
  := by
  apply (looks_atKind htokens _).moves_if
  · apply Moves.bind (onward_loop (passes_balancedPass htokens openKind closeKind) _)
    rintro ⟨out, closed⟩
    dsimp only
    split_ifs
    · exact onward_pure _
    · apply onward_current htokens
      intro last
      exact Moves.bind (onward_addError _ _) fun _ => onward_pure _
  · apply onward_current htokens
    intro tok
    exact Moves.bind (onward_addError _ _) fun _ => onward_pure _

theorem passes_usePass (path : String) : Passes tokens lo (usePass path) := by
  apply passes_atEnd htokens
  apply moves_at htokens (by decide)
  · exact moves_pure rfl
  · exact (forward_advance htokens).bind fun _ => onward_pure _

theorem forward_parseUse : Forward tokens lo parseUse := by
  apply (forward_expect htokens _ _).bind
  intro start
  exact Moves.bind (onward_loop (passes_usePass htokens) _) fun _ => onward_pure _

theorem forward_parseNestedField : Forward tokens lo parseNestedField := by
  have hrest (start : Token) : Forward tokens lo (do
      let _ ← advance
      let name ← expect .NAME "expected nested MAP field name"
      let _ ← expect .EQUAL "expected '=' after nested MAP field name"
      let initializer ← captureBalanced .LBRACE .RBRACE
      pure ({ name := name.lexeme, typeName := "MAP", initializer, span := start.span } : FieldDecl)) := by
    apply (forward_advance htokens).bind
    intro _
    apply Moves.bind (forward_expect htokens _ _).onward
    intro name
    apply Moves.bind (forward_expect htokens _ _).onward
    intro _
    exact Moves.bind (onward_captureBalanced htokens _ _) fun _ => onward_pure _
  exact moves_current htokens (fun tok _ => (hrest tok).anywhere) fun tok _ => (hrest tok).onward

theorem forward_parseTypedField (closeKind : Kind) : Forward tokens lo (parseTypedField closeKind) := by
  have hrest (start : Token) : Forward tokens lo (do
      let typeName ← parseTypeName
      let name ← expect .NAME "expected field name"
      if ← matchKind .EQUAL then
        let initializer ← captureUntilBoundary closeKind
        pure ({ name := name.lexeme, typeName, initializer, span := start.span } : FieldDecl)
      else pure { name := name.lexeme, typeName, span := start.span }) := by
    apply (forward_parseTypeName htokens).bind
    intro typeName
    apply Moves.bind (forward_expect htokens _ _).onward
    intro name
    apply moves_match htokens (by decide)
    · exact Moves.bind (onward_captureUntilBoundary htokens _) fun _ => onward_pure _
    · exact onward_pure _
  exact moves_current htokens (fun tok _ => (hrest tok).anywhere) fun tok _ => (hrest tok).onward

theorem looks_atBoth (first second : Kind) : Looks tokens (atBoth first second) := by
  apply (looks_atKind htokens first).bind
  intro b
  split_ifs
  · exact looks_peekAt htokens _ _
  · exact looks_pure _

theorem forward_parseField (closeKind : Kind) : Forward tokens lo (parseField closeKind) := by
  apply Moves.bind (looks_atBoth htokens _ _).onward
  intro nested
  split_ifs
  · exact forward_parseNestedField htokens
  · exact forward_parseTypedField htokens closeKind

/-- A field, with the comma and the ends of lines behind it. -/
theorem moves_field {field : Parser FieldDecl} (hfield : Forward tokens lo field) {far : _ → Bool}
    (fields : List FieldDecl) :
  Moves tokens true far lo (do
    let field ← field
    skipNewlines
    let _ ← matchKind .COMMA
    skipNewlines
    pure (.inl (fields ++ [field])) : Parser (List FieldDecl ⊕ List FieldDecl))
  := by
  have hskip := @onward_skipNewlines tokens lo htokens
  apply hfield.bind
  intro field
  apply Moves.bind hskip
  intro _
  apply Moves.bind (onward_matchKind htokens (by decide))
  intro _
  exact Moves.bind hskip fun _ => onward_pure _

theorem passes_fieldPass (closeKind : Kind) (fields : List FieldDecl) :
  Passes tokens lo (fieldPass closeKind fields)
  := by
  apply passes_atEnd htokens
  apply (looks_atKind htokens _).moves_if
  · exact moves_pure rfl
  exact moves_field htokens (forward_parseField htokens closeKind) fields

theorem onward_parseFields (closeKind : Kind) :
  Onward tokens lo (parseFields closeKind)
  := by
  apply Moves.bind (onward_skipNewlines htokens)
  intro _
  apply Moves.bind (onward_loop (passes_fieldPass htokens _) [])
  intro fields
  exact (forward_expect htokens _ _).bind fun _ => onward_pure _

theorem forward_parseMapDecl : Forward tokens lo parseMapDecl := by
  apply (forward_expect htokens _ _).bind
  intro start
  apply Moves.bind (forward_expect htokens _ _).onward
  intro name
  apply Moves.bind (forward_expect htokens _ _).onward
  intro _
  apply Moves.bind (forward_expect htokens _ _).onward
  intro _
  exact Moves.bind (onward_parseFields htokens _) fun _ => onward_pure _

theorem onward_parseTypeAlias (start : Token) : Onward tokens lo (parseTypeAlias start) := by
  apply Moves.bind (forward_expect htokens _ _).onward
  intro name
  apply Moves.bind (forward_expect htokens _ _).onward
  intro _
  apply Moves.bind (forward_parseTypeName htokens).onward
  intro typeName
  exact Moves.bind (onward_captureUntilBoundary htokens _) fun _ => onward_pure _

theorem forward_parseValueDecl (start : Token) : Forward tokens lo (parseValueDecl start) := by
  apply (forward_parseTypeName htokens).bind
  intro typeName
  apply Moves.bind (forward_expect htokens _ _).onward
  intro name
  apply moves_match htokens (by decide)
  · exact Moves.bind (onward_captureUntilBoundary htokens _) fun _ => onward_pure _
  · exact onward_pure _

theorem forward_parseAliasOrValue : Forward tokens lo parseAliasOrValue := by
  have hrest (start : Token) : Forward tokens lo (do
      if ← matchKind .TYPE then parseTypeAlias start else parseValueDecl start) :=
    moves_match htokens (by decide) (onward_parseTypeAlias htokens start)
      (forward_parseValueDecl htokens start)
  exact moves_current htokens (fun tok _ => (hrest tok).anywhere) fun tok _ => (hrest tok).onward

theorem forward_parseFnDecl : Forward tokens lo parseFnDecl := by
  apply (forward_expect htokens _ _).bind
  intro start
  apply Moves.bind (forward_expect htokens _ _).onward
  intro name
  apply Moves.bind (forward_expect htokens _ _).onward
  intro _
  apply Moves.bind (onward_parseParamList htokens)
  intro params
  apply Moves.bind (onward_parseReturnType htokens)
  intro returnType
  apply Moves.bind (forward_expect htokens _ _).onward
  intro _
  apply Moves.bind (onward_parseParenBlock htokens (forward_parseStatement htokens) _ _)
  exact fun _ => onward_pure _

/-! ### Programs -/

theorem looks_startsMapDecl : Looks tokens startsMapDecl := by
  apply (looks_atBoth htokens _ _).bind
  intro both
  split_ifs
  · exact looks_peekAt htokens _ _
  · exact looks_pure _

theorem looks_startsAliasOrValue : Looks tokens startsAliasOrValue := by
  apply (looks_atKind htokens _).bind
  intro type
  split_ifs
  · exact looks_pure _
  · exact (looks_current htokens).bind fun _ => looks_pure _

theorem passes_recoverPass (a : Unit) : Passes tokens lo (recoverPass a) := by
  apply passes_atEnd htokens
  apply moves_at htokens (by decide)
  · exact moves_pure rfl
  · exact (forward_advance htokens).bind fun _ => onward_pure _

theorem breaks_recoverPass {a b : Unit} {s s' : State} (hs : Sound tokens s)
    (hgives : Gives (recoverPass a) s (.inr b) s') :
  ∃ tok, Gives current s' tok s' ∧ (tok.kind = .EOF ∨ tok.kind = .NEWLINE)
  := by
  obtain ⟨tok, hcurrent, _⟩ := exists_current htokens hs
  have hat (kind : Kind) : Gives (atKind kind) s (tok.kind = kind) s :=
    gives_bind hcurrent (gives_pure _ _)
  have hend := hat .EOF
  have hline := hat .NEWLINE
  by_cases heof : tok.kind = .EOF
  · rw [decide_eq_true heof] at hend
    have hpass : Gives (recoverPass a) s (.inr ()) s := gives_then hend (gives_pure _ _)
    rw [(hgives.unique hpass).2]
    exact ⟨tok, hcurrent, .inl heof⟩
  rw [decide_eq_false heof] at hend
  by_cases hkind : tok.kind = .NEWLINE
  · rw [decide_eq_true hkind] at hline
    have hpass : Gives (recoverPass a) s (.inr ()) s :=
      gives_else hend (gives_then hline (gives_pure _ _))
    rw [(hgives.unique hpass).2]
    exact ⟨tok, hcurrent, .inr hkind⟩
  · rw [decide_eq_false hkind] at hline
    obtain ⟨_, s'', hadvance, _⟩ := forward_advance htokens s hs (Nat.zero_le _) (by simp)
    have hpass : Gives (recoverPass a) s (.inl ()) s'' :=
      gives_else hend (gives_else hline (gives_bind hadvance (gives_pure _ _)))
    exact nomatch (hgives.unique hpass).1

theorem onward_recoverLine : Onward tokens lo recoverLine := onward_loop (passes_recoverPass htokens) ()

/-- A line that has not ended is passed over. -/
theorem ends_recoverLine {s : State} (hs : Sound tokens s) {tok : Token} (hcurrent : Gives current s tok s)
    (heof : tok.kind ≠ .EOF) (hline : tok.kind ≠ .NEWLINE) :
  Ends recoverLine s fun _ s' => Sound tokens s' ∧ s.pos < s'.pos
  := by
  have hends := ends_loop (passes_recoverPass htokens)
    (fun a s b s' hs => breaks_recoverPass htokens hs) () hs (Nat.zero_le _)
  apply hends.mono
  rintro _ s' ⟨hs', hle, tok', hcurrent', hkind⟩
  refine ⟨hs', hle.lt_of_ne fun hsame => ?_⟩
  have heq := hcurrent.current_same hs hs' hsame hcurrent'
  rw [← heq] at hkind
  exact hkind.elim heof hline

theorem onward_parseDeclaration (program : Program) : Onward tokens lo (parseDeclaration program) := by
  apply moves_at htokens (by decide)
  · exact ((forward_parseUse htokens).bind fun _ => onward_pure _)
  apply Moves.bind (looks_startsMapDecl htokens).onward
  intro map
  split_ifs
  · exact (forward_parseMapDecl htokens).bind fun _ => onward_pure _
  apply moves_at htokens (by decide)
  · exact (forward_parseFnDecl htokens).bind fun _ => onward_pure _
  apply Moves.bind (looks_startsAliasOrValue htokens).onward
  intro value
  split_ifs
  · exact (forward_parseAliasOrValue htokens).bind fun _ => onward_pure _
  apply onward_current htokens
  intro tok
  apply Moves.bind (onward_addError tok _)
  intro _
  exact Moves.bind (onward_recoverLine htokens) fun _ => onward_pure _

/-- A declaration that does not start with the end of a line is passed. -/
theorem ends_parseDeclaration (program : Program) {s : State} (hs : Sound tokens s) {tok : Token}
    (hcurrent : Gives current s tok s) (heof : ¬ AtEof tokens s) (hkind : tok.kind ≠ .EOF)
    (hline : tok.kind ≠ .NEWLINE) :
  Ends (parseDeclaration program) s fun _ s' => Sound tokens s' ∧ s.pos < s'.pos
  := by
  have hitem {α : Type} {item : Parser α} (hforward : Forward tokens s.pos item) (f : α → Program) :
      Ends (do let item ← item; pure (f item)) s fun _ s' => Sound tokens s' ∧ s.pos < s'.pos := by
    apply (hforward s hs le_rfl (by simp)).bind
    rintro a s' ⟨hs', _, hlt⟩
    exact ⟨_, s', gives_pure _ s', hs', hlt heof rfl⟩
  apply (looks_atKind htokens _).ends_if hs
  · exact hitem (forward_parseUse htokens) _
  apply (looks_startsMapDecl htokens).ends_if hs
  · exact hitem (forward_parseMapDecl htokens) _
  apply (looks_atKind htokens _).ends_if hs
  · exact hitem (forward_parseFnDecl htokens) _
  apply (looks_startsAliasOrValue htokens).ends_if hs
  · exact hitem (forward_parseAliasOrValue htokens) _
  have hlook : Ends current s fun a s' => a = tok ∧ s' = s := ⟨tok, s, hcurrent, rfl, rfl⟩
  apply hlook.bind
  rintro _ _ ⟨rfl, rfl⟩
  apply (ends_addError _ _ hs).bind
  rintro _ s' ⟨hs', hpos⟩
  obtain ⟨tok', hcurrent', _⟩ := exists_current htokens hs'
  rw [← hcurrent.current_same hs hs' hpos.symm hcurrent'] at hcurrent'
  apply (ends_recoverLine htokens hs' hcurrent' hkind hline).bind
  rintro _ s'' ⟨hs'', hlt⟩
  exact ⟨_, s'', gives_pure _ s'', hs'', hpos ▸ hlt⟩

theorem moves_declaration {far : Program ⊕ Program → Bool} (program : Program) :
  Moves tokens true far lo (do
    let program ← parseDeclaration program
    skipNewlines
    pure (.inl program))
  := by
  intro s hs hlo hlive
  have hlive := hlive rfl
  obtain ⟨tok, hcurrent, hiff⟩ := exists_current htokens hs
  have hskip (s' : State) (hs' : Sound tokens s') := ends_loop (passes_newlinePass htokens)
    (fun a s b s' hs => breaks_newlinePass htokens hs) () hs' (Nat.zero_le _)
  by_cases hline : tok.kind = .NEWLINE
  · apply (onward_parseDeclaration htokens program s hs hlo (by simp)).bind
    rintro program' s' ⟨hs', hle, _⟩
    apply (hskip s' hs').bind
    rintro _ s'' ⟨hs'', hle', tok', hcurrent', hkind⟩
    refine ⟨_, s'', gives_pure _ s'', hs'', hle.trans hle', fun _ _ => ?_⟩
    -- the end of a line is passed by the declaration or behind it
    refine (hle.trans hle').lt_of_ne fun hsame => ?_
    have heq := hcurrent.current_same hs hs'' hsame hcurrent'
    exact hkind (heq ▸ hline)
  · have hkind : tok.kind ≠ .EOF := fun hkind => hlive (hiff.mp hkind)
    apply (ends_parseDeclaration htokens program hs hcurrent hlive hkind hline).bind
    rintro program' s' ⟨hs', hlt⟩
    apply (hskip s' hs').bind
    rintro _ s'' ⟨hs'', hle', _⟩
    exact ⟨_, s'', gives_pure _ s'', hs'', hlt.le.trans hle', fun _ _ => hlt.trans_le hle'⟩

theorem passes_programPass (program : Program) : Passes tokens lo (programPass program) :=
  passes_atEnd htokens (moves_declaration htokens program)

theorem breaks_programPass {program program' : Program} {s s' : State} (hs : Sound tokens s)
    (hgives : Gives (programPass program) s (.inr program') s') :
  AtEof tokens s'
  := by
  obtain ⟨tok, hcurrent, hiff⟩ := exists_current htokens hs
  have hat : Gives atEnd s (tok.kind = .EOF) s := gives_bind hcurrent (gives_pure _ _)
  by_cases heof : tok.kind = .EOF
  · rw [decide_eq_true heof] at hat
    have hpass : Gives (programPass program) s (.inr program) s := gives_then hat (gives_pure _ _)
    rw [(hgives.unique hpass).2]
    exact hiff.mp heof
  · rw [decide_eq_false heof] at hat
    obtain ⟨program'', s₁, hdeclaration, hs₁, _⟩ :=
      onward_parseDeclaration htokens program s hs (Nat.zero_le _) (by simp)
    obtain ⟨_, s₂, hskip, _⟩ := onward_skipNewlines htokens s₁ hs₁ (Nat.zero_le _) (by simp)
    have hpass : Gives (programPass program) s (.inl program'') s₂ :=
      gives_else hat (gives_bind hdeclaration (gives_bind hskip (gives_pure _ _)))
    exact nomatch (hgives.unique hpass).1

theorem ends_parseProgram {s : State} (hs : Sound tokens s) :
  Ends parseProgram s fun _ s' => Sound tokens s' ∧ AtEof tokens s'
  := by
  apply (onward_skipNewlines htokens s hs (Nat.zero_le _) (by simp)).bind
  rintro _ s' ⟨hs', _⟩
  apply (ends_loop (passes_programPass htokens) (fun _ _ _ _ hs => breaks_programPass htokens hs) {} hs'
    (Nat.zero_le _)).mono
  rintro _ s'' ⟨hs'', _, hend⟩
  exact ⟨hs'', hend⟩

end

/-- Functions call themselves only behind a token they have passed.  What they are given for these
calls need not have a value before. -/
def CallsBehind {ι α : Type} (tokens : List Token) (body : (ι → Parser α) → ι → Parser α) : Prop :=
  ∀ lo self, (∀ i, Forward tokens (lo + 1) (self i)) → ∀ i, Forward tokens lo (body self i)

/-- Every pass through a loop that goes on moves forward. -/
structure LoopsMove (tokens : List Token) : Prop where
  lines : ∀ a, Passes tokens 0 (newlinePass a)
  items : ∀ lo item, Forward tokens lo item →
    ∀ closeKind items, Passes tokens lo (itemPass item closeKind items)
  postfixes : ∀ lo self, (∀ entry, Forward tokens (lo + 1) (self entry)) →
    ∀ out, Passes tokens lo (postfixPass self out)
  operators : ∀ lo self, (∀ entry, Forward tokens (lo + 1) (self entry)) →
    ∀ minPrecedence left, Passes tokens lo (parseOperator self minPrecedence left)
  params : ∀ params, Passes tokens 0 (parseParam params)
  blockItems : ∀ lo self, Forward tokens lo self →
    ∀ closeKind statements, Passes tokens lo (parseItem self closeKind statements)
  branches : ∀ lo self, Forward tokens lo self →
    ∀ branches, Passes tokens lo (parseElx self branches)
  captures : ∀ closeKind state, Passes tokens 0 (capturePass closeKind state)
  regions : ∀ openKind closeKind state, Passes tokens 0 (balancedPass openKind closeKind state)
  paths : ∀ path, Passes tokens 0 (usePass path)
  fieldItems : ∀ closeKind fields, Passes tokens 0 (fieldPass closeKind fields)
  recoveries : ∀ a, Passes tokens 0 (recoverPass a)
  declarations : ∀ program, Passes tokens 0 (programPass program)

/-- Every function ends without moving back, and reads tokens where there are some. -/
structure FunctionsMove (tokens : List Token) : Prop where
  currents : Looks tokens current
  peeks : ∀ offset, Looks tokens (peek offset)
  expressions : ∀ entry, Forward tokens 0 (parse entry)
  types : Forward tokens 0 parseTypeName
  paramLists : Onward tokens 0 parseParamList
  statements : Forward tokens 0 parseStatement
  blocks : ∀ closeKind, Onward tokens 0 (parseBlock parseStatement closeKind)
  boundaries : ∀ closeKind, Onward tokens 0 (captureUntilBoundary closeKind)
  balanced : ∀ openKind closeKind, Onward tokens 0 (captureBalanced openKind closeKind)
  uses : Forward tokens 0 parseUse
  fields : ∀ closeKind, Onward tokens 0 (parseFields closeKind)
  maps : Forward tokens 0 parseMapDecl
  aliases : Forward tokens 0 parseAliasOrValue
  fns : Forward tokens 0 parseFnDecl
  declarations : ∀ program, Onward tokens 0 (parseDeclaration program)

theorem loops_move {tokens : List Token} (htokens : EndsWithEof tokens) : LoopsMove tokens where
  lines := passes_newlinePass htokens
  items _ _ hitem := passes_itemPass htokens hitem
  postfixes _ _ hself := passes_postfixPass htokens hself
  operators _ _ hself := passes_parseOperator htokens hself
  params := passes_parseParam htokens
  blockItems _ _ hself := passes_parseItem htokens hself
  branches _ _ hself := passes_parseElx htokens hself
  captures := passes_capturePass htokens
  regions := passes_balancedPass htokens
  paths := passes_usePass htokens
  fieldItems := passes_fieldPass htokens
  recoveries := passes_recoverPass htokens
  declarations := passes_programPass htokens

theorem functions_move {tokens : List Token} (htokens : EndsWithEof tokens) : FunctionsMove tokens where
  currents := looks_current htokens
  peeks := looks_peek htokens
  expressions := forward_parse htokens 0
  types := forward_parseTypeName htokens
  paramLists := onward_parseParamList htokens
  statements := forward_parseStatement htokens
  blocks := onward_parseBlock htokens (forward_parseStatement htokens)
  boundaries := onward_captureUntilBoundary htokens
  balanced := onward_captureBalanced htokens
  uses := forward_parseUse htokens
  fields := onward_parseFields htokens
  maps := forward_parseMapDecl htokens
  aliases := forward_parseAliasOrValue htokens
  fns := forward_parseFnDecl htokens
  declarations := onward_parseDeclaration htokens

/-- On tokens whose last one is the only end of the file a program is returned at or behind it.  No
function moves back, and loops and calls go on behind tokens they have passed. -/
theorem parser_recovers (tokens : List Token) (htokens : EndsWithEof tokens) :
  (∀ file, ∃ program s, Gives parseProgram (State.new file tokens) program s ∧
    Sound tokens s ∧ AtEof tokens s) ∧
  FunctionsMove tokens ∧ LoopsMove tokens ∧
  CallsBehind tokens parseBody ∧
  CallsBehind tokens (fun self (_ : Unit) => parseTypeBody (self ())) ∧
  CallsBehind tokens (fun self (_ : Unit) => parseStatementBody (self ()))
  := by
  refine ⟨fun file => ?_, functions_move htokens, loops_move htokens, ?_, ?_, ?_⟩
  · have hstart : Sound tokens (State.new file tokens) := ⟨rfl, Nat.zero_le _⟩
    exact ends_parseProgram htokens hstart
  · exact fun lo self hself => forward_parseBody htokens hself
  · exact fun lo self hself _ => forward_parseTypeBody htokens (hself ())
  · exact fun lo self hself _ => forward_parseStatementBody htokens (hself ())

/-- A parenthesis that closes nothing. -/
def strayTokens : List Token := [⟨.RPAREN, ")", ⟨1, 1, 1, 2⟩⟩, ⟨.EOF, "", ⟨1, 2, 1, 2⟩⟩]

theorem parser_recovers_stray :
  ∃ program s, Gives parseProgram (State.new "main" strayTokens) program s ∧
    Sound strayTokens s ∧ AtEof strayTokens s
  := (parser_recovers strayTokens ⟨[⟨.RPAREN, ")", ⟨1, 1, 1, 2⟩⟩], _, rfl, rfl, by decide⟩).1 "main"

end Caster.SelfHosting
