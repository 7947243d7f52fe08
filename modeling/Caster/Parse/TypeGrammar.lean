import Caster.Parse.Results
import Caster.TypeText

/-!
# The grammar of types

Which tokens spell a type, and which type they spell.  The parser of types reads exactly the tokens
that spell one, and returns its text.
-/

namespace Caster.Parse

open TokenParser

/-! ### Tokens that spell a type -/

/-- The kinds of the type names that stand alone. -/
def basicKinds : List TokenKind := [.INT, .FLT, .BOL, .STR, .NUL_TYPE]

/-- The name of a type of a module. -/
def memberTypeName (module member : String) : String :=
  if module = "WEB" then normalizeSourceTypeName member
  else if module = "BUF" ∧ member = "Buffer" then "Buffer"
  else module ++ "_" ++ member

/-- The words before one type in brackets, with their texts. -/
inductive Unary : TokenKind → String → (TypeTree → TypeTree) → Prop where
  | ARR : Unary .ARR "ARR[" .ARR
  | REF : Unary .REF "REF[" .REF
  | TSK : Unary .TSK "TSK[" .TSK

/-- The words before two types in brackets, with what is between the types. -/
inductive Binary : TokenKind → String → TokenKind → String → (TypeTree → TypeTree → TypeTree) → Prop where
  | MAP : Binary .MAP "MAP[" .COMMA "," .MAP
  | FN : Binary .FN "FN[" .ARROW "->" .FN

/-- There is a token of a kind at a position. -/
def KindAt (tokens : List Token) (i : ℕ) (k : TokenKind) : Prop :=
  ∃ tok, tokens[i]? = some tok ∧ tok.kind = k

/-- The tokens from a position up to another one spell a type. -/
inductive TypeAt (tokens : List Token) : ℕ → TypeTree → ℕ → Prop where
  | basic {i : ℕ} {tok : Token} (htok : tokens[i]? = some tok) (hkind : tok.kind ∈ basicKinds) :
    TypeAt tokens i (.name tok.text.toList) (i + 1)
  | name {i : ℕ} {tok after : Token} (htok : tokens[i]? = some tok) (hkind : tok.kind = .NAME)
    (hafter : tokens[i + 1]? = some after) (hdot : after.kind ≠ .DOT) :
    TypeAt tokens i (.name (normalizeSourceTypeName tok.text).toList) (i + 1)
  | member {i : ℕ} {tok mem : Token} (htok : tokens[i]? = some tok) (hkind : tok.kind = .NAME)
    (hdot : KindAt tokens (i + 1) .DOT) (hmem : tokens[i + 2]? = some mem) (hname : mem.kind = .NAME) :
    TypeAt tokens i (.name (memberTypeName tok.text mem.text).toList) (i + 3)
  | unary {i j : ℕ} {k : TokenKind} {opening : String} {f : TypeTree → TypeTree} {t : TypeTree}
    (hhead : Unary k opening f) (hkind : KindAt tokens i k) (hopen : KindAt tokens (i + 1) .LBRACKET)
    (h : TypeAt tokens (i + 2) t j) (hclose : KindAt tokens j .RBRACKET) :
    TypeAt tokens i (f t) (j + 1)
  | binary {i j l : ℕ} {k sep : TokenKind} {opening between : String}
    {f : TypeTree → TypeTree → TypeTree} {t u : TypeTree} (hhead : Binary k opening sep between f)
    (hkind : KindAt tokens i k) (hopen : KindAt tokens (i + 1) .LBRACKET)
    (h : TypeAt tokens (i + 2) t j) (hsep : KindAt tokens j sep) (h' : TypeAt tokens (j + 1) u l)
    (hclose : KindAt tokens l .RBRACKET) :
    TypeAt tokens i (f t u) (l + 1)

variable {tokens : List Token}

theorem KindAt.lt_length {i : ℕ} {k : TokenKind} (h : KindAt tokens i k) : i < tokens.length := by
  obtain ⟨tok, htok, -⟩ := h
  exact (List.getElem?_eq_some_iff.mp htok).1

theorem KindAt.unique {i : ℕ} {k k' : TokenKind} (h : KindAt tokens i k) (h' : KindAt tokens i k') :
  k = k'
  := by
  obtain ⟨tok, htok, rfl⟩ := h
  obtain ⟨tok', htok', rfl⟩ := h'
  rw [htok] at htok'
  cases htok'
  rfl

theorem TypeAt.lt {i j : ℕ} {t : TypeTree} (h : TypeAt tokens i t j) : i < j ∧ j ≤ tokens.length := by
  induction h with
  | basic htok => exact ⟨Nat.lt_succ_self _, (List.getElem?_eq_some_iff.mp htok).1⟩
  | name htok => exact ⟨Nat.lt_succ_self _, (List.getElem?_eq_some_iff.mp htok).1⟩
  | member _ _ _ hmem =>
    have hlt := (List.getElem?_eq_some_iff.mp hmem).1
    omega
  | unary _ _ _ _ hclose ih =>
    have hlt := hclose.lt_length
    omega
  | binary _ _ _ _ _ _ hclose ih ih' =>
    have hlt := hclose.lt_length
    omega

/-! ### Texts -/

theorem Unary.text {k : TokenKind} {opening : String} {f : TypeTree → TypeTree} (h : Unary k opening f)
    {s : String} {t : TypeTree} (hs : s.toList = t.text) :
  (opening ++ s ++ "]").toList = (f t).text
  := by
  rw [String.toList_append, String.toList_append, hs]
  cases h <;> rfl

theorem Binary.text {k sep : TokenKind} {opening between : String} {f : TypeTree → TypeTree → TypeTree}
    (h : Binary k opening sep between f) {s s' : String} {t u : TypeTree} (hs : s.toList = t.text)
    (hs' : s'.toList = u.text) :
  (opening ++ s ++ between ++ s' ++ "]").toList = (f t u).text
  := by
  simp only [String.toList_append, hs, hs']
  cases h <;> rfl

/-- A kind of token starts a type in one way or in none. -/
theorem starts_cases (k : TokenKind) :
  (∃ opening f, Unary k opening f) ∨ (∃ opening sep between f, Binary k opening sep between f) ∨
    k ∈ basicKinds ∨ k = .NAME ∨
    k ∉ [.ARR, .MAP, .REF, .TSK, .FN, .INT, .FLT, .BOL, .STR, .NUL_TYPE, .NAME]
  := by
  by_cases hk : k ∈ [TokenKind.ARR, .MAP, .REF, .TSK, .FN, .INT, .FLT, .BOL, .STR, .NUL_TYPE, .NAME]
  · simp only [List.mem_cons, List.not_mem_nil, or_false] at hk
    rcases hk with rfl | rfl | rfl | rfl | rfl | hk | hk | hk | hk | hk | rfl
    · exact .inl ⟨_, _, .ARR⟩
    · exact .inr (.inl ⟨_, _, _, _, .MAP⟩)
    · exact .inl ⟨_, _, .REF⟩
    · exact .inl ⟨_, _, .TSK⟩
    · exact .inr (.inl ⟨_, _, _, _, .FN⟩)
    · exact .inr (.inr (.inl (by simp [basicKinds, hk])))
    · exact .inr (.inr (.inl (by simp [basicKinds, hk])))
    · exact .inr (.inr (.inl (by simp [basicKinds, hk])))
    · exact .inr (.inr (.inl (by simp [basicKinds, hk])))
    · exact .inr (.inr (.inl (by simp [basicKinds, hk])))
    · exact .inr (.inr (.inr (.inl rfl)))
  · exact .inr (.inr (.inr (.inr hk)))

/-! ### The parser -/

section

variable {c c' : Cursor} {tok : Token} {α : Type} {a : α}

theorem returns_expect_iff {k : TokenKind} {message : String} :
  Returns tokens (expect k message) c tok c' ↔
    tokens[c.pos]? = some tok ∧ tok.kind = k ∧ c' = next c
  := by
  constructor
  · intro h
    obtain ⟨tok', c₁, hcur, hrest⟩ := returns_bind_iff.mp h
    obtain ⟨htok, rfl⟩ := returns_cur_iff.mp hcur
    by_cases hk : tok'.kind = k
    · rw [if_pos hk] at hrest
      obtain ⟨_, c₂, hadvance, hpure⟩ := returns_bind_iff.mp hrest
      obtain ⟨rfl, rfl⟩ := returns_pure_iff.mp hpure
      obtain ⟨-, rfl⟩ := hadvance.unique returns_advance
      exact ⟨htok, hk, rfl⟩
    · rw [if_neg hk] at hrest
      exact absurd hrest (not_returns_fail _ _)
  · rintro ⟨htok, hk, rfl⟩
    exact expect_returns htok hk message

variable (htok : tokens[c.pos]? = some tok)

include htok

/-- A parser that looks for a kind of token goes one way or the other. -/
theorem returns_match_iff (k : TokenKind) {yes no : P α} :
  Returns tokens (matchToken k >>= fun b => if b = true then yes else no) c a c' ↔
    if tok.kind = k then Returns tokens yes (next c) a c' else Returns tokens no c a c'
  := by
  unfold Returns
  by_cases hk : tok.kind = k
  · rw [bind_of_returns (matchToken_returns_true htok hk), if_pos hk]
    rfl
  · rw [bind_of_returns (matchToken_returns_false htok hk), if_neg hk]
    rfl

theorem matchToken_iff (k : TokenKind) {b : Bool} :
  Returns tokens (matchToken k) c b c' ↔
    if tok.kind = k then b = true ∧ c' = next c else b = false ∧ c' = c
  := by
  by_cases hk : tok.kind = k
  · rw [if_pos hk]
    constructor
    · exact fun h => h.unique (matchToken_returns_true htok hk)
    · rintro ⟨rfl, rfl⟩
      exact matchToken_returns_true htok hk
  · rw [if_neg hk]
    constructor
    · exact fun h => h.unique (matchToken_returns_false htok hk)
    · rintro ⟨rfl, rfl⟩
      exact matchToken_returns_false htok hk

theorem matchBasicType_iff {b : Bool} :
  Returns tokens matchBasicType c b c' ↔
    if tok.kind ∈ basicKinds then b = true ∧ c' = next c else b = false ∧ c' = c
  := by
  unfold matchBasicType either
  simp only [returns_match_iff htok, matchToken_iff htok, returns_pure_iff, basicKinds, List.mem_cons,
    List.not_mem_nil, or_false, eq_comm (a := true), eq_comm (a := next c)]
  split_ifs <;> tauto

/-- A parser that looks for a type name that stands alone goes one way or the other. -/
theorem returns_basic_iff {yes no : P α} :
  Returns tokens (matchBasicType >>= fun b => if b = true then yes else no) c a c' ↔
    if tok.kind ∈ basicKinds then Returns tokens yes (next c) a c' else Returns tokens no c a c'
  := by
  unfold Returns
  by_cases hk : tok.kind ∈ basicKinds
  · have hbasic : Returns tokens matchBasicType c true (next c) :=
      (matchBasicType_iff htok).mpr (by rw [if_pos hk]; exact ⟨rfl, rfl⟩)
    rw [bind_of_returns hbasic, if_pos hk]
    rfl
  · have hbasic : Returns tokens matchBasicType c false c :=
      (matchBasicType_iff htok).mpr (by rw [if_neg hk]; exact ⟨rfl, rfl⟩)
    rw [bind_of_returns hbasic, if_neg hk]
    rfl

/-- A parser reads the token at the position first. -/
theorem returns_cur_bind_iff {f : Token → P α} :
  Returns tokens (cur >>= f) c a c' ↔ Returns tokens (f tok) c a c'
  := by
  unfold Returns
  rw [bind_of_returns (cur_returns htok)]

end

section

variable {c c' : Cursor} {self : P ParsedType} {r : ParsedType}

/-- One type in brackets. -/
theorem returns_bracketed_iff {message message' : String} {f : ParsedType → ParsedType} :
  Returns tokens (do
      let _ ← expect .LBRACKET message
      let t ← self
      let _ ← expect .RBRACKET message'
      pure (f t)) c r c' ↔
    KindAt tokens c.pos .LBRACKET ∧ ∃ t c₁, Returns tokens self (next c) t c₁ ∧
      KindAt tokens c₁.pos .RBRACKET ∧ r = f t ∧ c' = next c₁
  := by
  simp only [returns_bind_iff, returns_expect_iff, returns_pure_iff]
  constructor
  · rintro ⟨tok, _, ⟨htok, hk, rfl⟩, t, c₁, ht, tok', _, ⟨htok', hk', rfl⟩, rfl, rfl⟩
    exact ⟨⟨tok, htok, hk⟩, t, c₁, ht, ⟨tok', htok', hk'⟩, rfl, rfl⟩
  · rintro ⟨⟨tok, htok, hk⟩, t, c₁, ht, ⟨tok', htok', hk'⟩, rfl, rfl⟩
    exact ⟨tok, _, ⟨htok, hk, rfl⟩, t, c₁, ht, tok', _, ⟨htok', hk', rfl⟩, rfl, rfl⟩

/-- Two types in brackets with a token between them. -/
theorem returns_pair_iff {sep : TokenKind} {message message' message'' : String}
    {f : ParsedType → ParsedType → ParsedType} :
  Returns tokens (do
      let _ ← expect .LBRACKET message
      let t ← self
      let _ ← expect sep message'
      let u ← self
      let _ ← expect .RBRACKET message''
      pure (f t u)) c r c' ↔
    KindAt tokens c.pos .LBRACKET ∧ ∃ t c₁, Returns tokens self (next c) t c₁ ∧
      KindAt tokens c₁.pos sep ∧ ∃ u c₂, Returns tokens self (next c₁) u c₂ ∧
        KindAt tokens c₂.pos .RBRACKET ∧ r = f t u ∧ c' = next c₂
  := by
  simp only [returns_bind_iff, returns_expect_iff, returns_pure_iff]
  constructor
  · rintro ⟨tok, _, ⟨htok, hk, rfl⟩, t, c₁, ht, tok', _, ⟨htok', hk', rfl⟩, u, c₂, hu, tok'', _,
      ⟨htok'', hk'', rfl⟩, rfl, rfl⟩
    exact ⟨⟨tok, htok, hk⟩, t, c₁, ht, ⟨tok', htok', hk'⟩, u, c₂, hu, ⟨tok'', htok'', hk''⟩, rfl, rfl⟩
  · rintro ⟨⟨tok, htok, hk⟩, t, c₁, ht, ⟨tok', htok', hk'⟩, u, c₂, hu, ⟨tok'', htok'', hk''⟩, rfl, rfl⟩
    exact ⟨tok, _, ⟨htok, hk, rfl⟩, t, c₁, ht, tok', _, ⟨htok', hk', rfl⟩, u, c₂, hu, tok'', _,
      ⟨htok'', hk'', rfl⟩, rfl, rfl⟩

theorem exists_of_matchToken {k : TokenKind} {b : Bool} (h : Returns tokens (matchToken k) c b c') :
  ∃ tok, tokens[c.pos]? = some tok
  := by
  obtain ⟨_, _, hcurIs, -⟩ := returns_bind_iff.mp h
  obtain ⟨tok, _, hcur, -⟩ := returns_bind_iff.mp hcurIs
  exact ⟨tok, (returns_cur_iff.mp hcur).1⟩

/-- A name, and perhaps a member behind it. -/
theorem parseNamedType_iff {tok : Token} :
  Returns tokens (parseNamedType tok) c r c' ↔
    (∃ after, tokens[c.pos]? = some after ∧ after.kind ≠ .DOT ∧
        r = ⟨normalizeSourceTypeName tok.text, tok⟩ ∧ c' = c) ∨
      (KindAt tokens c.pos .DOT ∧ ∃ mem, tokens[c.pos + 1]? = some mem ∧ mem.kind = .NAME ∧
        r = ⟨memberTypeName tok.text mem.text, tok⟩ ∧ c' = next (next c))
  := by
  have hmember : ∀ mem : Token,
      (if tok.text = "WEB" then (pure ⟨normalizeSourceTypeName mem.text, tok⟩ : P ParsedType)
      else if tok.text = "BUF" ∧ mem.text = "Buffer" then pure ⟨"Buffer", tok⟩
      else pure ⟨tok.text ++ "_" ++ mem.text, tok⟩) = pure ⟨memberTypeName tok.text mem.text, tok⟩ := by
    intro mem
    unfold memberTypeName
    split_ifs <;> rfl
  unfold parseNamedType
  simp only [hmember]
  constructor
  · intro h
    obtain ⟨_, _, hmatch, -⟩ := returns_bind_iff.mp h
    obtain ⟨after, hafter⟩ := exists_of_matchToken hmatch
    rw [returns_match_iff hafter] at h
    split_ifs at h with hdot
    · obtain ⟨mem, _, hexpect, hpure⟩ := returns_bind_iff.mp h
      obtain ⟨hmem, hname, rfl⟩ := returns_expect_iff.mp hexpect
      obtain ⟨rfl, rfl⟩ := returns_pure_iff.mp hpure
      exact .inr ⟨⟨after, hafter, hdot⟩, mem, hmem, hname, rfl, rfl⟩
    · obtain ⟨rfl, rfl⟩ := returns_pure_iff.mp h
      exact .inl ⟨after, hafter, hdot, rfl, rfl⟩
  · rintro (⟨after, hafter, hdot, rfl, rfl⟩ | ⟨⟨after, hafter, hdot⟩, mem, hmem, hname, rfl, rfl⟩)
    · rw [returns_match_iff hafter, if_neg hdot]
      exact returns_pure _
    · rw [returns_match_iff hafter, if_pos hdot]
      exact returns_bind (returns_expect_iff.mpr ⟨hmem, hname, rfl⟩) (returns_pure _)

variable {tok : Token} (htok : tokens[c.pos]? = some tok)

include htok

theorem parseTypeBody_unary {k : TokenKind} {opening : String} {f : TypeTree → TypeTree}
    (hhead : Unary k opening f) (hk : tok.kind = k) :
  Returns tokens (parseTypeBody self) c r c' ↔
    KindAt tokens (c.pos + 1) .LBRACKET ∧ ∃ t c₁, Returns tokens self (next (next c)) t c₁ ∧
      KindAt tokens c₁.pos .RBRACKET ∧ r = ⟨opening ++ t.type ++ "]", tok⟩ ∧ c' = next c₁
  := by
  unfold parseTypeBody
  rw [returns_cur_bind_iff htok]
  cases hhead <;>
    simp only [returns_match_iff htok, hk, reduceCtorEq, if_true, if_false, returns_bracketed_iff, next_pos]

theorem parseTypeBody_binary {k sep : TokenKind} {opening between : String}
    {f : TypeTree → TypeTree → TypeTree} (hhead : Binary k opening sep between f) (hk : tok.kind = k) :
  Returns tokens (parseTypeBody self) c r c' ↔
    KindAt tokens (c.pos + 1) .LBRACKET ∧ ∃ t c₁, Returns tokens self (next (next c)) t c₁ ∧
      KindAt tokens c₁.pos sep ∧ ∃ u c₂, Returns tokens self (next c₁) u c₂ ∧
        KindAt tokens c₂.pos .RBRACKET ∧ r = ⟨opening ++ t.type ++ between ++ u.type ++ "]", tok⟩ ∧
          c' = next c₂
  := by
  unfold parseTypeBody
  rw [returns_cur_bind_iff htok]
  cases hhead <;>
    simp only [returns_match_iff htok, hk, reduceCtorEq, if_true, if_false, returns_pair_iff, next_pos]

theorem parseTypeBody_basic (hk : tok.kind ∈ basicKinds) :
  Returns tokens (parseTypeBody self) c r c' ↔ r = ⟨tok.text, tok⟩ ∧ c' = next c
  := by
  have hne : ∀ k ∈ [TokenKind.ARR, .MAP, .REF, .TSK, .FN], tok.kind ≠ k := by
    intro k hmem heq
    rw [heq] at hk
    revert hmem hk
    cases k <;> decide
  simp only [List.mem_cons, List.not_mem_nil, or_false, forall_eq_or_imp, forall_eq] at hne
  unfold parseTypeBody
  rw [returns_cur_bind_iff htok]
  simp only [returns_match_iff htok, returns_basic_iff htok, hne, hk, if_true, if_false, returns_pure_iff,
    eq_comm]

/-- What `parseNamedType` returns behind a name. -/
theorem parseTypeBody_name (hk : tok.kind = .NAME) :
  Returns tokens (parseTypeBody self) c r c' ↔
    (∃ after, tokens[c.pos + 1]? = some after ∧ after.kind ≠ .DOT ∧
        r = ⟨normalizeSourceTypeName tok.text, tok⟩ ∧ c' = next c) ∨
      (KindAt tokens (c.pos + 1) .DOT ∧ ∃ mem, tokens[c.pos + 2]? = some mem ∧ mem.kind = .NAME ∧
        r = ⟨memberTypeName tok.text mem.text, tok⟩ ∧ c' = next (next (next c)))
  := by
  unfold parseTypeBody
  rw [returns_cur_bind_iff htok]
  simp only [returns_match_iff htok, returns_basic_iff htok, hk, basicKinds, List.mem_cons,
    List.not_mem_nil, or_false, reduceCtorEq, if_true, if_false, parseNamedType_iff, next_pos]

theorem not_returns_parseTypeBody
    (hk : tok.kind ∉ [TokenKind.ARR, .MAP, .REF, .TSK, .FN, .INT, .FLT, .BOL, .STR, .NUL_TYPE, .NAME]) :
  ¬ Returns tokens (parseTypeBody self) c r c'
  := by
  simp only [List.mem_cons, List.not_mem_nil, or_false, not_or] at hk
  unfold parseTypeBody
  rw [returns_cur_bind_iff htok]
  simp only [returns_match_iff htok, returns_basic_iff htok, hk, basicKinds, List.mem_cons,
    List.not_mem_nil, or_self, if_false]
  exact not_returns_fail _ _

end

/-! ### What the parser reads -/

/-- A result is the text of a type that the tokens spell. -/
def ReadsType (tokens : List Token) (c : Cursor) (r : ParsedType) (c' : Cursor) : Prop :=
  tokens[c.pos]? = some r.token ∧ c'.flag = c.flag ∧
    ∃ t, TypeAt tokens c.pos t c'.pos ∧ r.type.toList = t.text

variable {c c' : Cursor} {r : ParsedType}

/-- What the body of `parse_type` returns is right, when its calls are. -/
theorem readsType_of_body {self : P ParsedType}
    (hself : ∀ c r c', Returns tokens self c r c' → ReadsType tokens c r c')
    (h : Returns tokens (parseTypeBody self) c r c') :
  ReadsType tokens c r c'
  := by
  obtain ⟨tok, _, hcur, -⟩ := returns_bind_iff.mp h
  obtain ⟨htok, -⟩ := returns_cur_iff.mp hcur
  rcases starts_cases tok.kind with ⟨opening, f, hhead⟩ | ⟨opening, sep, between, f, hhead⟩ | hk | hk | hk
  · obtain ⟨hopen, t, c₁, ht, hclose, rfl, rfl⟩ := (parseTypeBody_unary htok hhead rfl).mp h
    obtain ⟨-, hflag, tree, htree, htext⟩ := hself _ _ _ ht
    refine ⟨htok, hflag, f tree, ?_, hhead.text htext⟩
    exact .unary hhead ⟨tok, htok, rfl⟩ hopen htree hclose
  · obtain ⟨hopen, t, c₁, ht, hsep, u, c₂, hu, hclose, rfl, rfl⟩ :=
      (parseTypeBody_binary htok hhead rfl).mp h
    obtain ⟨-, hflag, tree, htree, htext⟩ := hself _ _ _ ht
    obtain ⟨-, hflag', tree', htree', htext'⟩ := hself _ _ _ hu
    refine ⟨htok, hflag'.trans hflag, f tree tree', ?_, hhead.text htext htext'⟩
    exact .binary hhead ⟨tok, htok, rfl⟩ hopen htree hsep htree' hclose
  · obtain ⟨rfl, rfl⟩ := (parseTypeBody_basic htok hk).mp h
    exact ⟨htok, rfl, _, .basic htok hk, rfl⟩
  · obtain ⟨after, hafter, hdot, rfl, rfl⟩ | ⟨hdot, mem, hmem, hname, rfl, rfl⟩ :=
      (parseTypeBody_name htok hk).mp h
    · exact ⟨htok, rfl, _, .name htok hk hafter hdot, rfl⟩
    · exact ⟨htok, rfl, _, .member htok hk hdot hmem hname, rfl⟩
  · exact absurd h (not_returns_parseTypeBody htok hk)

theorem readsType_of_fixFuel (n : ℕ)
    (h : Returns tokens (fixFuel (fun self (_ : Unit) => parseTypeBody (self ())) n ()) c r c') :
  ReadsType tokens c r c'
  := by
  induction n generalizing c r c' with
  | zero => cases h
  | succ n ih => exact readsType_of_body (fun c r c' => ih) h

/-- Tokens that spell a type are read, with the fuel for the tokens from there on. -/
theorem fixFuel_of_typeAt {i j : ℕ} {t : TypeTree} (h : TypeAt tokens i t j) {n : ℕ}
    (hn : tokens.length < i + n) (flag : Bool) :
  ∃ r, Returns tokens (fixFuel (fun self (_ : Unit) => parseTypeBody (self ())) n ()) ⟨i, flag⟩ r
    ⟨j, flag⟩ ∧ r.type.toList = t.text
  := by
  induction h generalizing n with
  | @basic i tok htok hkind =>
    have hlt := (List.getElem?_eq_some_iff.mp htok).1
    obtain ⟨n, rfl⟩ : ∃ m, n = m + 1 := ⟨n - 1, by omega⟩
    exact ⟨_, (parseTypeBody_basic htok hkind).mpr ⟨rfl, rfl⟩, rfl⟩
  | @name i tok after htok hkind hafter hdot =>
    have hlt := (List.getElem?_eq_some_iff.mp htok).1
    obtain ⟨n, rfl⟩ : ∃ m, n = m + 1 := ⟨n - 1, by omega⟩
    exact ⟨_, (parseTypeBody_name htok hkind).mpr (.inl ⟨after, hafter, hdot, rfl, rfl⟩), rfl⟩
  | @member i tok mem htok hkind hdot hmem hname =>
    have hlt := (List.getElem?_eq_some_iff.mp htok).1
    obtain ⟨n, rfl⟩ : ∃ m, n = m + 1 := ⟨n - 1, by omega⟩
    exact ⟨_, (parseTypeBody_name htok hkind).mpr (.inr ⟨hdot, mem, hmem, hname, rfl, rfl⟩), rfl⟩
  | @unary i j k opening f t hhead hkind hopen h hclose ih =>
    have hlt := hkind.lt_length
    obtain ⟨tok, htok, hk⟩ := hkind
    obtain ⟨n, rfl⟩ : ∃ m, n = m + 1 := ⟨n - 1, by omega⟩
    obtain ⟨r, hr, htext⟩ := ih (n := n) (by omega)
    exact ⟨_, (parseTypeBody_unary htok hhead hk).mpr ⟨hopen, r, _, hr, hclose, rfl, rfl⟩,
      hhead.text htext⟩
  | @binary i j l k sep opening between f t u hhead hkind hopen h hsep h' hclose ih ih' =>
    have hlt := hkind.lt_length
    have hlt' := h.lt
    obtain ⟨tok, htok, hk⟩ := hkind
    obtain ⟨n, rfl⟩ : ∃ m, n = m + 1 := ⟨n - 1, by omega⟩
    obtain ⟨r, hr, htext⟩ := ih (n := n) (by omega)
    obtain ⟨r', hr', htext'⟩ := ih' (n := n) (by omega)
    exact ⟨_, (parseTypeBody_binary htok hhead hk).mpr
      ⟨hopen, r, _, hr, hsep, r', _, hr', hclose, rfl, rfl⟩, hhead.text htext htext'⟩

/-- The parser of types returns a text at a position and ends at another one exactly when the tokens
between them spell a type and the text is that of the type. -/
theorem parseType_returns_iff {tokens : List Token} {c c' : Cursor} {r : ParsedType} :
  Returns tokens parseType c r c' ↔
    tokens[c.pos]? = some r.token ∧ c'.flag = c.flag ∧
      ∃ t, TypeAt tokens c.pos t c'.pos ∧ r.type.toList = t.text
  := by
  constructor
  · exact readsType_of_fixFuel _
  · rintro ⟨htok, hflag, t, ht, htext⟩
    have hfuel : tokens.length < c.pos + 1 * (tokens.length + 1) := by omega
    obtain ⟨r', hr', htext'⟩ := fixFuel_of_typeAt ht hfuel c.flag
    obtain ⟨htok', -⟩ := readsType_of_fixFuel _ hr'
    have htype : r'.type = r.type := String.toList_inj.mp (htext'.trans htext.symm)
    have hsame : r' = r := by
      rw [htok] at htok'
      obtain ⟨type, tok⟩ := r
      obtain ⟨type', tok'⟩ := r'
      cases htok'
      cases htype
      rfl
    have hend : c' = ⟨c'.pos, c.flag⟩ := by rw [← hflag]
    rw [hend, ← hsame]
    exact hr'

end Caster.Parse
