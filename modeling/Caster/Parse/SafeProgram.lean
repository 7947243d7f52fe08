import Caster.Parse.Program
import Caster.Parse.SafeExpressions

/-!
# Programs are parsed within bounds

The parser of a program ends on all tokens of which the last one, and no other, is the end of
the program, and it reads no token behind the last one.
-/

namespace Caster.Parse

open TokenParser

variable {tokens : List Token} {last lo : ℕ} {self : Entry → P Node}

section

variable (hend : Ended tokens last)

include hend

section

variable (hself : Calls tokens last lo self)

include hself

/-! ### Statements -/

theorem parseElx_onward (hlo : 0 < lo) : Onward tokens last lo (parseElx self) := by
  apply Onward.bind (onward_prev hlo hend.lt_length)
  intro _
  apply Forward.bind (parseCondition_forward hend hself _ _)
  intro _
  apply Forward.bind (parseBlock_forward hend hself)
  intro _
  exact onward_pure _

/-- The branches of a statement `if`. -/
theorem elxBranches_onward :
  Onward tokens last lo (loop (fun (branches : List Node) => do
    if ← matchToken .ELX then
      let branch ← parseElx self
      skipNewlines
      pure (.inl (branches ++ [branch]))
    else pure (.inr branches : List Node ⊕ List Node)) [])
  := by
  apply onward_loop hend.lt_length
  intro _
  apply Takes.ite (matchToken_takes hend (by decide))
  · apply Onward.bind (parseElx_onward hend hself.succ (Nat.succ_pos _))
    intro _
    apply Onward.bind (skipNewlines_onward hend)
    intro _
    exact onward_pure _
  · exact moves_pure rfl

/-- The position is set back to where it was unless an argument is wrapped. -/
theorem tryParseLoopWrappedArg_moves {openKind closeKind : TokenKind} (hopen : openKind ≠ .EOF)
    (hclose : closeKind ≠ .EOF) (hint : String) :
  Moves tokens last Option.isSome lo (tryParseLoopWrappedArg self openKind closeKind hint)
  := by
  intro c hlo hpos
  have hback {c' : Cursor} : Safe tokens (do
      seek c.pos
      pure none : P (Option Node)) c' fun found c'' =>
        c.pos ≤ c''.pos ∧ c''.pos ≤ last ∧ (found.isSome = true → c.pos < c''.pos) := by
    apply safe_then (safe_seek _)
    intro _ c'' hc''
    exact safe_pure ⟨by omega, by omega, fun h => nomatch h⟩
  apply safe_then safe_position
  rintro _ c ⟨rfl, rfl⟩
  apply safe_ite (matchToken_takes hend hopen c hlo hpos)
  · rintro c₁ ⟨_, hlast₁, hlt₁⟩
    have hlt₁ := hlt₁ rfl
    apply safe_then (skipNewlines_onward hend c₁ (show lo ≤ c₁.pos by omega) hlast₁)
    rintro _ c₂ ⟨hle₂, hlast₂, _⟩
    apply safe_ite (curIs_looks hend hclose c₂ hlast₂)
    · rintro c₂ _
      exact hback
    · rintro c₂ ⟨rfl, _⟩
      apply safe_then (hself _ c₂ (by omega) hlast₂)
      rintro inner c₃ ⟨hle₃, hlast₃, _⟩
      apply safe_then (skipNewlines_onward hend c₃ (show lo ≤ c₃.pos by omega) hlast₃)
      rintro _ c₄ ⟨hle₄, hlast₄, _⟩
      apply safe_then (peek_safe hend (c := c₄) hlast₄)
      rintro tok c₄ ⟨rfl, heof⟩
      split_ifs with htok
      · exact hback
      · have hkind : tok.kind = closeKind := not_not.mp fun h => htok (Or.inl h)
        have hlt₄ : c₄.pos < last :=
          lt_of_le_of_ne hlast₄ fun h => hclose (hkind.symm.trans (heof.mpr h))
        apply safe_then safe_advance
        intro _ c₅ hc₅
        exact safe_pure ⟨by omega, by omega, fun _ => by omega⟩
  · rintro c₁ ⟨hle₁, hlast₁, _⟩
    exact safe_pure ⟨hle₁, hlast₁, fun h => nomatch h⟩

theorem parseLoopWrapper_moves : Moves tokens last Option.isSome lo (parseLoopWrapper self) := by
  intro c hlo hpos
  apply safe_then (tryParseLoopWrappedArg_moves hend hself (by decide) (by decide) "array" c hlo hpos)
  rintro (_ | arg) c' ⟨hle, hlast, hlt⟩
  · apply safe_mono (tryParseLoopWrappedArg_moves hend hself (by decide) (by decide) "map" c'
      (hlo.trans hle) hlast)
    rintro found c'' ⟨hle', hlast', hlt'⟩
    exact ⟨hle.trans hle', hlast', fun h => hle.trans_lt (hlt' h)⟩
  · exact safe_pure ⟨hle, hlast, hlt⟩

theorem parseLoopArgument_forward (loopHint : Option String) :
  Forward tokens last lo (parseLoopArgument self loopHint)
  := by
  intro c hlo hpos
  apply safe_then (parseLoopWrapper_moves hend hself c hlo hpos)
  rintro (_ | arg) c' ⟨hle, hlast, hlt⟩
  · apply safe_then (hself _ c' (hlo.trans hle) hlast)
    rintro arg c'' ⟨_, hlast', hlt'⟩
    have hlt' := hlt' rfl
    exact safe_pure ⟨by omega, hlast', fun _ => by omega⟩
  · dsimp only
    split_ifs
    · exact safe_fail _
    · exact safe_pure ⟨hle, hlast, fun _ => hlt rfl⟩

omit hself in
theorem parseLoopName_onward (n : Node) : Onward tokens last lo (parseLoopName n) := by
  apply Takes.ite (matchToken_takes hend (by decide))
  · apply Forward.bind (expect_forward hend (by decide) _)
    intro _
    apply Onward.bind (cur_onward hend)
    intro tok
    split_ifs
    · exact moves_fail _
    · exact onward_pure _
  · exact onward_pure _

theorem parseLoopArguments_onward (n : Node) :
  Onward tokens last lo (parseLoopArguments self n)
  := by
  apply Onward.ite (curIs_onward hend)
  · exact onward_pure _
  apply Onward.bind
  · apply onward_loop hend.lt_length
    intro n
    apply Forward.bind (parseLoopArgument_forward hend hself _)
    rintro ⟨arg, loopHint⟩
    apply Onward.ite (curIs_onward hend)
    · exact onward_pure _
    apply Takes.ite (matchToken_takes hend (by decide))
    · exact onward_pure _
    · exact onward_pure _
  · intro n
    exact parseLoopName_onward hend n

omit hself in
theorem parseDestructureNames_forward (field : Node) :
  Forward tokens last lo (parseDestructureNames field)
  := by
  apply Takes.ite (matchToken_takes hend (by decide))
  · apply Forward.bind (expect_forward hend (by decide) _)
    intro _
    apply Takes.ite (matchToken_takes hend (by decide))
    · apply Forward.bind (expect_forward hend (by decide) _)
      intro _
      exact onward_pure _
    · exact onward_pure _
  · apply Forward.bind (expect_forward hend (by decide) _)
    intro _
    exact onward_pure _

omit hself in
theorem parseDestructureFields_onward : Onward tokens last lo parseDestructureFields := by
  apply onward_loop hend.lt_length
  intro _
  apply Onward.bind (cur_onward hend)
  intro tok
  split_ifs
  · exact moves_pure rfl
  · exact moves_fail _
  · apply Forward.bind (parseDestructureType_forward hend)
    intro _
    apply Onward.bind (parseDestructureNames_forward hend _).onward
    intro _
    apply Onward.bind (skipNewlines_onward hend)
    intro _
    apply Takes.ite (matchToken_takes hend (by decide))
    · apply Onward.bind (skipNewlines_onward hend)
      intro _
      exact onward_pure _
    · exact onward_pure _

omit hself in
theorem parseParams_onward : Onward tokens last lo parseParams := by
  apply Onward.ite (curIs_onward hend)
  · exact onward_pure _
  apply onward_loop hend.lt_length
  intro _
  apply Forward.bind (parseType_forward hend)
  intro _
  apply Forward.bind (expect_forward hend (by decide) _)
  intro _
  apply Onward.bind (skipNewlines_onward hend)
  intro _
  apply Takes.ite (matchToken_takes hend (by decide))
  · apply Onward.bind (skipNewlines_onward hend)
    intro _
    exact onward_pure _
  · exact onward_pure _

omit hself in
theorem parseResultType_onward : Onward tokens last lo parseResultType := by
  apply Takes.ite (matchToken_takes hend (by decide))
  · apply Forward.bind (parseType_forward hend)
    intro _
    exact onward_pure _
  · exact onward_pure _

end

/-! ### Functions and statements, behind their first tokens -/

section

variable (hself : Calls tokens last (lo + 1) self)

include hself

theorem parseIf_forward : Forward tokens last lo (parseIf self) := by
  apply Forward.bind_succ (expect_forward hend (by decide) _)
  intro _
  apply Forward.bind (parseCondition_forward hend hself _ _)
  intro _
  apply Forward.bind (parseBlock_forward hend hself)
  intro _
  apply Onward.bind (skipNewlines_onward hend)
  intro _
  apply Onward.bind (elxBranches_onward hend hself)
  intro _
  apply Takes.ite (matchToken_takes hend (by decide))
  · apply Forward.bind (parseBlock_forward hend hself.succ)
    intro _
    exact onward_pure _
  · exact onward_pure _

theorem parseLoop_forward : Forward tokens last lo (parseLoop self) := by
  apply Forward.bind_succ (expect_forward hend (by decide) _)
  intro _
  apply Forward.bind (expect_forward hend (by decide) _)
  intro _
  apply Onward.bind (parseLoopArguments_onward hend hself _)
  intro _
  apply Forward.bind (expect_forward hend (by decide) _)
  intro _
  apply Forward.bind (parseBlock_forward hend hself)
  intro _
  exact onward_pure _

theorem parseDestructureStatement_forward :
  Forward tokens last lo (parseDestructureStatement self)
  := by
  apply Forward.bind_succ (expect_forward hend (by decide) _)
  intro _
  apply Onward.bind (skipNewlines_onward hend)
  intro _
  apply Onward.bind (parseDestructureFields_onward hend)
  intro _
  apply Forward.bind (expect_forward hend (by decide) _)
  intro _
  apply Forward.bind (expect_forward hend (by decide) _)
  intro _
  apply Forward.bind (hself _)
  intro _
  exact onward_pure _

theorem parseFnDecl_forward : Forward tokens last lo (parseFnDecl self) := by
  apply Forward.bind_succ (expect_forward hend (by decide) _)
  intro _
  apply Forward.bind (expect_forward hend (by decide) _)
  intro _
  apply Forward.bind (expect_forward hend (by decide) _)
  intro _
  apply Onward.bind (skipNewlines_onward hend)
  intro _
  apply Onward.bind (parseParams_onward hend)
  intro _
  apply Forward.bind (expect_forward hend (by decide) _)
  intro _
  apply Onward.bind (parseResultType_onward hend)
  intro _
  apply Forward.bind (expect_forward hend (by decide) _)
  intro _
  apply Forward.bind (parseBlock_forward hend hself)
  intro _
  exact onward_pure _

theorem parseVar_forward : Forward tokens last lo (parseVar self) := by
  apply Forward.bind_succ (parseType_forward hend)
  intro _
  apply Forward.bind (expect_forward hend (by decide) _)
  intro _
  apply Takes.ite (matchToken_takes hend (by decide))
  · apply Forward.bind (hself.succ _)
    intro _
    exact onward_pure _
  · exact onward_pure _

theorem parseRet_atToken {tok : Token} (htok : tok.kind ≠ .EOF) :
  AtToken tokens last (fun _ => true) lo tok (parseRet self tok)
  := by
  right
  refine ⟨htok, _, rfl, ?_⟩
  apply Onward.bind (cur_onward hend)
  intro _
  dsimp only
  split_ifs
  · apply Forward.bind (hself _)
    intro _
    exact onward_pure _
  · exact onward_pure _

theorem parseThrow_atToken {tok : Token} (htok : tok.kind ≠ .EOF) :
  AtToken tokens last (fun _ => true) lo tok (parseThrow self tok)
  := by
  right
  refine ⟨htok, _, rfl, ?_⟩
  apply Forward.bind (parseCondition_forward hend hself _ _)
  intro _
  exact onward_pure _

theorem parseFree_atToken {tok : Token} (htok : tok.kind ≠ .EOF) :
  AtToken tokens last (fun _ => true) lo tok (parseFree self tok)
  := by
  right
  refine ⟨htok, _, rfl, ?_⟩
  apply Takes.ite (matchToken_takes hend (by decide))
  · apply Forward.bind (hself.succ _)
    intro _
    apply Forward.bind (expect_forward hend (by decide) _)
    intro _
    exact onward_pure _
  · apply Forward.bind (hself _)
    intro _
    exact onward_pure _

end

/-- A statement starts with its own token or with an expression. -/
theorem parseAssignment_forward (hself : ∀ minPrec, Forward tokens last lo (self (.expression minPrec)))
    (tok : Token) :
  Forward tokens last lo (parseAssignment self tok)
  := by
  apply Forward.bind (hself _)
  intro _
  apply Takes.ite (matchToken_takes hend (by decide))
  · apply Forward.bind (hself _).succ
    intro _
    exact onward_pure _
  apply Takes.ite (matchToken_takes hend (by decide))
  · apply Forward.bind (hself _).succ
    intro _
    exact onward_pure _
  apply Takes.ite (matchToken_takes hend (by decide))
  · apply Forward.bind (hself _).succ
    intro _
    exact onward_pure _
  apply Takes.ite (matchToken_takes hend (by decide))
  · exact onward_pure _
  · exact onward_pure _

theorem parseStatementBody_forward (hself : Calls tokens last (lo + 1) self)
    (hexpression : ∀ minPrec, Forward tokens last lo (self (.expression minPrec))) :
  Forward tokens last lo (parseStatementBody self)
  := by
  intro c hlo hpos
  apply safe_then (peek_safe hend (c := c) hpos)
  rintro tok c ⟨rfl, heof⟩
  split
  · exact parseFnDecl_forward hend hself c hlo hpos
  apply safe_ite (startsDestructure_stays hend hpos)
  · rintro c rfl
    exact parseDestructureStatement_forward hend hself c hlo hpos
  rintro c rfl
  apply safe_ite (startsType_stays hend hpos)
  · rintro c rfl
    exact parseVar_forward hend hself c hlo hpos
  rintro c rfl
  refine (?_ : AtToken tokens last (fun _ => true) lo tok _).safe heof hlo hpos
  split_ifs with hret hif hloop hpass hthrow hfree
  · exact parseRet_atToken hend hself (by simp [hret])
  · exact Or.inl (parseIf_forward hend hself)
  · exact Or.inl (parseLoop_forward hend hself)
  · exact Or.inr ⟨by simp [hpass], _, rfl, onward_pure _⟩
  · exact parseThrow_atToken hend hself (by simp [hthrow])
  · exact parseFree_atToken hend hself (by simp [hfree])
  · exact Or.inl (parseAssignment_forward hend hexpression tok)

/-- Expressions before statements. -/
def Entry.rank : Entry → ℕ
  | expression _ => 0
  | statement => 1

/-- Expressions and statements: a statement calls the parser of expressions where it starts
itself. -/
theorem parse_forward (i : Entry) : Forward tokens last lo (parse i) := by
  have hrank (i : Entry) : i.rank < 2 := by
    cases i with
    | expression minPrec => exact Nat.zero_lt_two
    | statement => exact Nat.one_lt_two
  apply forward_fix Entry.rank hrank hend.lt_length
  intro self i lo hself hlower
  cases i with
  | expression minPrec => exact parseExpressionBody_forward hend hself minPrec
  | statement =>
    exact parseStatementBody_forward hend hself fun minPrec => hlower _ Nat.one_pos

theorem parse_calls : Calls tokens last lo parse := parse_forward hend

/-! ### Declarations -/

theorem startsInlineArrayMap_looks : Looks tokens last 0 4 startsInlineArrayMap :=
  (curIs_looks hend (by decide)).both ((peekIs_looks hend 1 (by decide)).both
    ((peekIs_looks hend 2 (by decide)).both (peekIs_looks hend 3 (by decide))))

theorem startsNamedArrayMap_onward : Onward tokens last lo startsNamedArrayMap :=
  ((startsInlineArrayMap_looks hend).both
    ((peekIs_looks hend 4 (by decide)).both (peekIs_looks hend 5 (by decide)))).onward

/-- A token of a kind behind which a name and an `=` stand. -/
theorem namedEqual_looks {p : P Bool} (hp : Looks tokens last 0 1 p) :
  Looks tokens last 0 3 (both p (both (peekIs 1 .NAME) (peekIs 2 .EQUAL)))
  := hp.both ((peekIs_looks hend 1 (by decide)).both (peekIs_looks hend 2 (by decide)))

theorem expectArrayMap_forward : Forward tokens last lo expectArrayMap := by
  apply Forward.bind (expect_forward hend (by decide) _)
  intro _
  apply Forward.bind (expect_forward hend (by decide) _)
  intro _
  apply Forward.bind (expect_forward hend (by decide) _)
  intro _
  apply Forward.bind (expect_forward hend (by decide) _)
  intro _
  exact onward_pure _

theorem expectArrayMapName_forward
    (nameMessage equalMessage bracketMessage braceMessage : String) :
  Forward tokens last lo
    (expectArrayMapName nameMessage equalMessage bracketMessage braceMessage)
  := by
  apply Forward.bind (expect_forward hend (by decide) _)
  intro _
  apply Forward.bind (expect_forward hend (by decide) _)
  intro _
  apply Forward.bind (expect_forward hend (by decide) _)
  intro _
  apply Forward.bind (expect_forward hend (by decide) _)
  intro _
  exact onward_pure _

section

variable {fields : StructArgs → P Node} (hfields : ∀ args, Forward tokens last (lo + 1) (fields args))

include hfields

theorem parseArrayMapField_forward (args : StructArgs) :
  Forward tokens last lo (parseArrayMapField fields args)
  := by
  apply Forward.bind_succ (expectArrayMap_forward hend)
  intro _
  apply Forward.bind (expectArrayMapName_forward hend _ _ _ _)
  intro _
  apply Forward.bind (hfields _)
  intro _
  apply Forward.bind (expect_forward hend (by decide) _)
  intro _
  exact onward_pure _

theorem parseMapField_forward (args : StructArgs) :
  Forward tokens last lo (parseMapField fields args)
  := by
  apply Forward.bind_succ (expect_forward hend (by decide) _)
  intro _
  apply Forward.bind (expect_forward hend (by decide) _)
  intro _
  apply Forward.bind (expect_forward hend (by decide) _)
  intro _
  apply Takes.ite (matchToken_takes hend (by decide))
  · apply Onward.bind (onward_prev (Nat.succ_pos _) hend.lt_length)
    intro _
    exact moves_fail _
  · apply Forward.bind (expect_forward hend (by decide) _)
    intro _
    apply Forward.bind (hfields _)
    intro _
    exact onward_pure _

omit hfields in
theorem parseTypedField_forward (args : StructArgs) :
  Forward tokens last lo (parseTypedField args)
  := by
  apply Forward.bind (parseType_forward hend)
  intro _
  apply Forward.bind (expect_forward hend (by decide) _)
  intro _
  apply Takes.ite (matchToken_takes hend (by decide))
  · apply Forward.bind (parse_forward hend _)
    intro _
    exact onward_pure _
  · exact onward_pure _

theorem parseStructField_forward (args : StructArgs) :
  Forward tokens last lo (parseStructField fields args)
  := by
  apply Onward.ite (startsNamedArrayMap_onward hend)
  · exact parseArrayMapField_forward hend hfields args
  apply Onward.ite (namedEqual_looks hend (curIs_looks hend (by decide))).onward
  · exact parseMapField_forward hend hfields args
  · exact parseTypedField_forward hend args

theorem parseTypeStructFieldsBody_forward (args : StructArgs) :
  Forward tokens last lo (parseTypeStructFieldsBody fields args)
  := by
  apply Onward.bind (skipNewlines_onward hend)
  intro _
  apply Onward.bind
  · apply onward_loop hend.lt_length
    intro _
    apply Onward.bind (cur_onward hend)
    intro tok
    split_ifs
    · exact moves_pure rfl
    · exact moves_fail _
    · apply Forward.bind (parseStructField_forward hend hfields _)
      intro _
      apply Onward.bind (skipEntrySeparator_onward hend)
      intro _
      exact onward_pure _
  · intro _
    apply Forward.bind (expect_forward hend (by decide) _)
    intro _
    exact onward_pure _

end

theorem parseTypeStructFields_forward (args : StructArgs) :
  Forward tokens last lo (parseTypeStructFields args)
  := by
  apply forward_fix (fun _ => 0) (fun _ => Nat.one_pos) hend.lt_length
  intro self args lo hself _
  exact parseTypeStructFieldsBody_forward hend hself args

theorem parseInlineArrayMapAlias_forward : Forward tokens last lo parseInlineArrayMapAlias := by
  apply Forward.bind (expectArrayMap_forward hend)
  intro _
  apply Forward.bind (expectArrayMapName_forward hend _ _ _ _)
  intro _
  apply Forward.bind (parseTypeStructFields_forward hend _)
  intro _
  apply Forward.bind (expect_forward hend (by decide) _)
  intro _
  exact onward_pure _

theorem parseTypeAlias_forward (tok name : Token) :
  Forward tokens last lo (parseTypeAlias tok name)
  := by
  apply Forward.bind (parseType_forward hend)
  intro _
  apply Onward.bind (cur_onward hend)
  intro _
  dsimp only
  split_ifs
  · apply Forward.bind (parse_forward hend _)
    intro _
    exact onward_pure _
  · exact onward_pure _

theorem parseTypeDecl_forward : Forward tokens last lo parseTypeDecl := by
  apply Onward.bind (cur_onward hend)
  intro tok
  apply Takes.ite ((matchToken_takes hend (by decide)).either (matchToken_takes hend (by decide)))
  · apply Forward.bind (expect_forward hend (by decide) _)
    intro name
    apply Forward.bind (expect_forward hend (by decide) _)
    intro _
    apply Takes.ite (matchToken_takes hend (by decide))
    · apply Onward.bind (onward_prev (Nat.succ_pos _) hend.lt_length)
      intro _
      exact moves_fail _
    apply Takes.ite (matchToken_takes hend (by decide))
    · exact (parseTypeStructFields_forward hend _).onward
    split_ifs
    · apply Onward.bind (cur_onward hend)
      intro _
      exact moves_fail _
    · exact (parseTypeAlias_forward hend tok name).onward
  · exact moves_fail _

theorem parseTopLevelValue_forward : Forward tokens last lo parseTopLevelValue := by
  apply Forward.bind (parseType_forward hend)
  intro _
  apply Forward.bind (expect_forward hend (by decide) _)
  intro _
  apply Takes.ite (matchToken_takes hend (by decide))
  · apply Forward.bind (parse_forward hend _)
    intro _
    exact onward_pure _
  · exact moves_fail _

theorem parseTopLevel_forward (prog : Node) : Forward tokens last lo (parseTopLevel prog) := by
  apply Onward.ite (startsNamedArrayMap_onward hend)
  · apply Forward.bind (parseInlineArrayMapAlias_forward hend)
    intro _
    exact onward_pure _
  apply Onward.ite (namedEqual_looks hend
    ((curIs_looks hend (by decide)).either (curIs_looks hend (by decide)))).onward
  · apply Forward.bind (parseTypeDecl_forward hend)
    intro _
    exact onward_pure _
  apply Onward.ite (onward_of_stays fun _ hpos => startsType_stays hend hpos)
  · apply Forward.bind (parseTopLevelValue_forward hend)
    intro _
    exact onward_pure _
  apply Onward.ite (curIs_onward hend)
  · apply Forward.bind (parseFnDecl_forward hend (parse_calls hend))
    intro _
    exact onward_pure _
  · apply Forward.bind (parse_forward hend _)
    intro _
    exact onward_pure _

theorem parseProgramBody_onward : Onward tokens last lo parseProgramBody := by
  apply Onward.bind (cur_onward hend)
  intro first
  apply Onward.bind (skipNewlines_onward hend)
  intro _
  apply onward_loop hend.lt_length
  intro prog
  apply Onward.ite (curIs_onward hend)
  · exact moves_pure rfl
  · apply Forward.bind (parseTopLevel_forward hend prog)
    intro _
    apply Onward.bind (skipNewlines_onward hend)
    intro _
    exact onward_pure _

end

/-! ### All programs -/

/-- The tokens end with a token that ends the program, and there is no other. -/
def EndsWithEof (tokens : List Token) : Prop :=
  ∃ before eof, tokens = before ++ [eof] ∧ eof.kind = .EOF ∧ ∀ tok ∈ before, tok.kind ≠ .EOF

theorem EndsWithEof.ended (h : EndsWithEof tokens) : ∃ last, Ended tokens last := by
  obtain ⟨before, eof, rfl, heof, hbefore⟩ := h
  use before.length
  constructor
  · exact List.length_append
  · intro i t ht
    rcases Nat.lt_trichotomy i before.length with hlt | rfl | hlt
    · rw [List.getElem?_append_left hlt] at ht
      have hne := hbefore t (List.mem_of_getElem? ht)
      exact ⟨fun h => absurd h hne, fun h => absurd h hlt.ne⟩
    · rw [List.getElem?_concat_length, Option.some.injEq] at ht
      subst ht
      exact ⟨fun _ => rfl, fun _ => heof⟩
    · rw [List.getElem?_eq_none (by simpa using hlt)] at ht
      cases ht

/-- The parser of a program ends with a program or an error: it neither runs on nor reads a
token behind the last one. -/
theorem parseProgram_ends (h : EndsWithEof tokens) :
  (∃ prog c, parseProgram tokens = .ok prog c) ∨ ∃ e, parseProgram tokens = .error e
  := by
  obtain ⟨last, hend⟩ := h.ended
  have hsafe := parseProgramBody_onward hend ⟨0, false⟩ le_rfl (Nat.zero_le last)
  unfold Safe at hsafe
  unfold parseProgram
  cases hresult : parseProgramBody tokens ⟨0, false⟩ with
  | ok prog c => exact Or.inl ⟨prog, c, rfl⟩
  | error e => exact Or.inr ⟨e, rfl⟩
  | outOfBounds =>
    rw [hresult] at hsafe
    exact hsafe.elim
  | outOfFuel =>
    rw [hresult] at hsafe
    exact hsafe.elim

/-- A brace that opens a pattern nothing closes. -/
theorem parseProgram_ends_brace :
  EndsWithEof [⟨.LBRACE, "\x7b", 1, 1⟩, ⟨.EOF, "", 1, 2⟩] ∧
    ((∃ prog c, parseProgram [⟨.LBRACE, "\x7b", 1, 1⟩, ⟨.EOF, "", 1, 2⟩] = .ok prog c) ∨
      ∃ e, parseProgram [⟨.LBRACE, "\x7b", 1, 1⟩, ⟨.EOF, "", 1, 2⟩] = .error e)
  := by
  have hends : EndsWithEof [⟨.LBRACE, "\x7b", 1, 1⟩, ⟨.EOF, "", 1, 2⟩] :=
    ⟨[⟨.LBRACE, "\x7b", 1, 1⟩], ⟨.EOF, "", 1, 2⟩, rfl, rfl, by simp⟩
  exact ⟨hends, parseProgram_ends hends⟩

end Caster.Parse
