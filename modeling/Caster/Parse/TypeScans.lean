import Caster.Parse.TypeGrammar

/-!
# Looking ahead over a type

Which tokens the scan passes that looks ahead over a type: it accepts ends of lines inside brackets, and
stops behind a name whose member could be the field of a destructuring.
-/

namespace Caster.Parse

open TokenParser

/-! ### Tokens that are scanned as a type -/

/-- The kinds of tokens behind the field of a destructuring. -/
def fieldEnds : List TokenKind := [.COMMA, .RBRACE, .AS]

/-- Ends of lines, and then none. -/
structure Lines (tokens : List Token) (i j : ℕ) : Prop where
  le : i ≤ j
  lines : ∀ k, i ≤ k → k < j → KindAt tokens k .NEWLINE
  stop : ∃ tok, tokens[j]? = some tok ∧ tok.kind ≠ .NEWLINE

/-- Where the scan stops behind a name: it goes on over a member that is not a field. -/
inductive NameEnd (tokens : List Token) (i : ℕ) : ℕ → Prop where
  | alone {after : Token} (hafter : tokens[i]? = some after) (hdot : after.kind ≠ .DOT) :
    NameEnd tokens i i
  | noMember {mem : Token} (hdot : KindAt tokens i .DOT) (hmem : tokens[i + 1]? = some mem)
    (hname : mem.kind ≠ .NAME) : NameEnd tokens i i
  | field {stop : Token} (hdot : KindAt tokens i .DOT) (hmem : KindAt tokens (i + 1) .NAME)
    (hstop : tokens[i + 2]? = some stop) (hend : stop.kind ∈ fieldEnds) : NameEnd tokens i i
  | member {stop : Token} (hdot : KindAt tokens i .DOT) (hmem : KindAt tokens (i + 1) .NAME)
    (hstop : tokens[i + 2]? = some stop) (hend : stop.kind ∉ fieldEnds) : NameEnd tokens i (i + 2)

/-- The tokens from a position up to another one are scanned as a type. -/
inductive ScanAt (tokens : List Token) : ℕ → ℕ → Prop where
  | basic {i : ℕ} {tok : Token} (htok : tokens[i]? = some tok) (hkind : tok.kind ∈ basicKinds) :
    ScanAt tokens i (i + 1)
  | name {i j : ℕ} (hkind : KindAt tokens i .NAME) (hend : NameEnd tokens (i + 1) j) : ScanAt tokens i j
  | unary {i a b d : ℕ} {k : TokenKind} {opening : String} {f : TypeTree → TypeTree}
    (hhead : Unary k opening f) (hkind : KindAt tokens i k) (hopen : KindAt tokens (i + 1) .LBRACKET)
    (hlines : Lines tokens (i + 2) a) (h : ScanAt tokens a b) (hlines' : Lines tokens b d)
    (hclose : KindAt tokens d .RBRACKET) : ScanAt tokens i (d + 1)
  | binary {i a b d e l m : ℕ} {k sep : TokenKind} {opening between : String}
    {f : TypeTree → TypeTree → TypeTree} (hhead : Binary k opening sep between f)
    (hkind : KindAt tokens i k) (hopen : KindAt tokens (i + 1) .LBRACKET)
    (hlines : Lines tokens (i + 2) a) (h : ScanAt tokens a b) (hlines' : Lines tokens b d)
    (hsep : KindAt tokens d sep) (hlines₂ : Lines tokens (d + 1) e) (h' : ScanAt tokens e l)
    (hlines₃ : Lines tokens l m) (hclose : KindAt tokens m .RBRACKET) : ScanAt tokens i (m + 1)

variable {tokens : List Token}

/-! ### The scans -/

section

variable {c c' : Cursor}

theorem returns_tokenAt_iff {pos : ℕ} {tok : Token} :
  Returns tokens (tokenAt pos : P Token) c tok c' ↔ tokens[pos]? = some tok ∧ c' = c
  := by
  unfold Returns tokenAt
  cases tokens[pos]? with
  | none => simp
  | some t => rw [ParseEnd.ok.injEq, Option.some.injEq, @eq_comm _ c c']

theorem returns_tokenAtIs_iff {pos : ℕ} {k : TokenKind} {b : Bool} :
  Returns tokens (tokenAtIs pos k) c b c' ↔
    ∃ tok, tokens[pos]? = some tok ∧ b = decide (tok.kind = k) ∧ c' = c
  := by
  unfold tokenAtIs
  simp only [returns_bind_iff, returns_tokenAt_iff, returns_pure_iff]
  constructor
  · rintro ⟨tok, _, ⟨htok, rfl⟩, rfl, rfl⟩
    exact ⟨tok, htok, rfl, rfl⟩
  · rintro ⟨tok, htok, rfl, rfl⟩
    exact ⟨tok, _, ⟨htok, rfl⟩, rfl, rfl⟩

theorem run_drop_cons {p : Token → Bool} {i : ℕ} {tok : Token} (htok : tokens[i]? = some tok) :
  run p (tokens.drop i) = if p tok then (run p (tokens.drop (i + 1))).map (· + 1) else some 0
  := by
  obtain ⟨hlt, rfl⟩ := List.getElem?_eq_some_iff.mp htok
  rw [List.drop_eq_getElem_cons hlt]
  rfl

theorem lines_refl_iff {i : ℕ} :
  Lines tokens i i ↔ ∃ tok, tokens[i]? = some tok ∧ tok.kind ≠ .NEWLINE
  := by
  constructor
  · exact fun h => h.stop
  · exact fun h => ⟨le_refl i, fun k hle hlt => absurd hlt (Nat.not_lt.mpr hle), h⟩

theorem lines_succ_iff {i j : ℕ} (hlt : i < j) :
  Lines tokens i j ↔ KindAt tokens i .NEWLINE ∧ Lines tokens (i + 1) j
  := by
  constructor
  · intro h
    exact ⟨h.lines i (le_refl i) hlt, hlt, fun k hle => h.lines k (by omega), h.stop⟩
  · rintro ⟨hi, h⟩
    refine ⟨hlt.le, ?_, h.stop⟩
    intro k hle hlt'
    obtain rfl | hne := eq_or_ne i k
    · exact hi
    · exact h.lines k (by omega) hlt'

/-- The length of a run of ends of lines. -/
theorem run_isNewline_iff {i n : ℕ} :
  run isNewline (tokens.drop i) = some n ↔ Lines tokens i (i + n)
  := by
  induction n generalizing i with
  | zero =>
    rw [Nat.add_zero, lines_refl_iff]
    cases htok : tokens[i]? with
    | none =>
      rw [List.drop_eq_nil_of_le (List.getElem?_eq_none_iff.mp htok)]
      simp [run]
    | some tok =>
      rw [run_drop_cons htok, isNewline]
      by_cases hk : tok.kind = .NEWLINE <;> simp [hk]
  | succ n ih =>
    rw [lines_succ_iff (Nat.lt_add_of_pos_right (Nat.succ_pos n))]
    cases htok : tokens[i]? with
    | none =>
      rw [List.drop_eq_nil_of_le (List.getElem?_eq_none_iff.mp htok)]
      simp [run, KindAt, htok]
    | some tok =>
      have hpos : i + n.succ = i + 1 + n := by omega
      rw [run_drop_cons htok, isNewline, hpos, ← ih]
      by_cases hk : tok.kind = .NEWLINE <;> simp [KindAt, htok, hk]

theorem returns_scanNewlines_iff {i j : ℕ} :
  Returns tokens (scanNewlines i) c j c' ↔ Lines tokens i j ∧ c' = c
  := by
  unfold scanNewlines Returns scan
  cases hrun : run isNewline (tokens.drop i) with
  | none =>
    simp only [reduceCtorEq, false_iff, not_and]
    intro hlines
    obtain ⟨n, rfl⟩ := Nat.le.dest hlines.le
    rw [run_isNewline_iff.mpr hlines] at hrun
    cases hrun
  | some n =>
    have hlines := run_isNewline_iff.mp hrun
    rw [ParseEnd.ok.injEq]
    constructor
    · rintro ⟨rfl, rfl⟩
      exact ⟨hlines, rfl⟩
    · rintro ⟨hlines', rfl⟩
      obtain ⟨m, rfl⟩ := Nat.le.dest hlines'.le
      have hrun' := run_isNewline_iff.mpr hlines'
      rw [hrun] at hrun'
      cases hrun'
      exact ⟨rfl, rfl⟩

/-- A scan of what comes behind another scan. -/
theorem returns_thenScan_iff {first : P (Option ℕ)} {next : ℕ → P (Option ℕ)} {j : ℕ} :
  Returns tokens (thenScan first next) c (some j) c' ↔
    ∃ i c₁, Returns tokens first c (some i) c₁ ∧ Returns tokens (next i) c₁ (some j) c'
  := by
  unfold thenScan
  rw [returns_bind_iff]
  constructor
  · rintro ⟨found, c₁, hfirst, hnext⟩
    cases found with
    | none =>
      obtain ⟨hnone, -⟩ := returns_pure_iff.mp hnext
      cases hnone
    | some i => exact ⟨i, c₁, hfirst, hnext⟩
  · rintro ⟨i, c₁, hfirst, hnext⟩
    exact ⟨some i, c₁, hfirst, hnext⟩

/-- A condition decides whether there is a position. -/
theorem returns_found_iff {pos : ℕ} {k : TokenKind} {yes : P (Option ℕ)} {j : ℕ} :
  Returns tokens (tokenAtIs pos k >>= fun b => if b = true then yes else pure none) c (some j) c' ↔
    KindAt tokens pos k ∧ Returns tokens yes c (some j) c'
  := by
  simp only [returns_bind_iff, returns_tokenAtIs_iff]
  constructor
  · rintro ⟨b, _, ⟨tok, htok, rfl, rfl⟩, h⟩
    by_cases hk : tok.kind = k
    · rw [decide_eq_true hk, if_pos rfl] at h
      exact ⟨⟨tok, htok, hk⟩, h⟩
    · rw [decide_eq_false hk] at h
      obtain ⟨hnone, -⟩ := returns_pure_iff.mp h
      cases hnone
  · rintro ⟨⟨tok, htok, hk⟩, h⟩
    refine ⟨true, c, ⟨tok, htok, by rw [decide_eq_true hk], rfl⟩, ?_⟩
    rw [if_pos rfl]
    exact h

theorem returns_scanSeparator_iff {k : TokenKind} {i j : ℕ} :
  Returns tokens (scanSeparator k i) c (some j) c' ↔
    ∃ d, Lines tokens i d ∧ KindAt tokens d k ∧ Lines tokens (d + 1) j ∧ c' = c
  := by
  unfold scanSeparator
  simp only [returns_bind_iff (p := scanNewlines _), returns_scanNewlines_iff, returns_found_iff,
    returns_pure_iff, Option.some.injEq]
  constructor
  · rintro ⟨d, _, ⟨hlines, rfl⟩, hk, e, _, ⟨hlines', rfl⟩, rfl, rfl⟩
    exact ⟨d, hlines, hk, hlines', rfl⟩
  · rintro ⟨d, hlines, hk, hlines', rfl⟩
    exact ⟨d, _, ⟨hlines, rfl⟩, hk, j, _, ⟨hlines', rfl⟩, rfl, rfl⟩

theorem returns_scanClose_iff {k : TokenKind} {i j : ℕ} :
  Returns tokens (scanClose k i) c (some j) c' ↔
    ∃ d, Lines tokens i d ∧ KindAt tokens d k ∧ j = d + 1 ∧ c' = c
  := by
  unfold scanClose
  simp only [returns_bind_iff (p := scanNewlines _), returns_scanNewlines_iff, returns_found_iff,
    returns_pure_iff, Option.some.injEq]
  constructor
  · rintro ⟨d, _, ⟨hlines, rfl⟩, hk, rfl, rfl⟩
    exact ⟨d, hlines, hk, rfl, rfl⟩
  · rintro ⟨d, hlines, hk, rfl, rfl⟩
    exact ⟨d, _, ⟨hlines, rfl⟩, hk, rfl, rfl⟩

theorem returns_scanOpen_iff {i j : ℕ} :
  Returns tokens (scanOpen i) c (some j) c' ↔
    KindAt tokens i .LBRACKET ∧ Lines tokens (i + 1) j ∧ c' = c
  := by
  unfold scanOpen
  simp only [returns_found_iff, returns_bind_iff (p := scanNewlines _), returns_scanNewlines_iff,
    returns_pure_iff, Option.some.injEq]
  constructor
  · rintro ⟨hk, e, _, ⟨hlines, rfl⟩, rfl, rfl⟩
    exact ⟨hk, hlines, rfl⟩
  · rintro ⟨hk, hlines, rfl⟩
    exact ⟨hk, j, _, ⟨hlines, rfl⟩, rfl, rfl⟩

theorem returns_bothAt_iff {i j : ℕ} {k k' : TokenKind} {b : Bool} :
  Returns tokens (both (tokenAtIs i k) (tokenAtIs j k')) c b c' ↔
    ∃ tok, tokens[i]? = some tok ∧ c' = c ∧
      if tok.kind = k then ∃ tok', tokens[j]? = some tok' ∧ b = decide (tok'.kind = k') else b = false
  := by
  unfold both
  rw [returns_bind_iff]
  simp only [returns_tokenAtIs_iff]
  constructor
  · rintro ⟨_, _, ⟨tok, htok, rfl, rfl⟩, h⟩
    refine ⟨tok, htok, ?_⟩
    by_cases hk : tok.kind = k
    · rw [decide_eq_true hk, if_pos rfl, returns_tokenAtIs_iff] at h
      obtain ⟨tok', htok', rfl, rfl⟩ := h
      rw [if_pos hk]
      exact ⟨rfl, tok', htok', rfl⟩
    · rw [decide_eq_false hk] at h
      obtain ⟨rfl, rfl⟩ := returns_pure_iff.mp h
      rw [if_neg hk]
      exact ⟨rfl, rfl⟩
  · rintro ⟨tok, htok, rfl, h⟩
    refine ⟨_, _, ⟨tok, htok, rfl, rfl⟩, ?_⟩
    by_cases hk : tok.kind = k
    · rw [if_pos hk] at h
      obtain ⟨tok', htok', rfl⟩ := h
      rw [decide_eq_true hk, if_pos rfl, returns_tokenAtIs_iff]
      exact ⟨tok', htok', rfl, rfl⟩
    · rw [if_neg hk] at h
      rw [h, decide_eq_false hk]
      exact returns_pure _

/-- Where the scan stops if there is a module and its member. -/
theorem scanName_of_member {i : ℕ} {stop : Token} (hdot : KindAt tokens i .DOT)
    (hmem : KindAt tokens (i + 1) .NAME) (hstop : tokens[i + 2]? = some stop) :
  Returns tokens (scanName i) c (some (if stop.kind ∈ fieldEnds then i else i + 2)) c
  := by
  obtain ⟨tok, htok, hdot⟩ := hdot
  obtain ⟨mem, hmem, hname⟩ := hmem
  have hboth : Returns tokens (both (tokenAtIs i .DOT) (tokenAtIs (i + 1) .NAME)) c true c := by
    refine returns_bothAt_iff.mpr ⟨tok, htok, rfl, ?_⟩
    rw [if_pos hdot]
    exact ⟨mem, hmem, by rw [decide_eq_true hname]⟩
  apply returns_bind hboth
  rw [if_pos rfl]
  apply returns_bind (returns_tokenAt_iff.mpr ⟨hstop, rfl⟩)
  unfold fieldEnds
  rw [ite_not]
  split_ifs <;> exact returns_pure _

/-- Where the scan stops if there is none. -/
theorem scanName_of_not_member {i : ℕ} {tok : Token} (htok : tokens[i]? = some tok)
    (h : tok.kind = .DOT → ∃ mem, tokens[i + 1]? = some mem ∧ mem.kind ≠ .NAME) :
  Returns tokens (scanName i) c (some i) c
  := by
  have hboth : Returns tokens (both (tokenAtIs i .DOT) (tokenAtIs (i + 1) .NAME)) c false c := by
    refine returns_bothAt_iff.mpr ⟨tok, htok, rfl, ?_⟩
    split_ifs with hdot
    · obtain ⟨mem, hmem, hname⟩ := h hdot
      exact ⟨mem, hmem, by rw [decide_eq_false hname]⟩
    · rfl
  exact returns_bind hboth (returns_pure _)

theorem returns_scanName_iff {i j : ℕ} :
  Returns tokens (scanName i) c (some j) c' ↔ NameEnd tokens i j ∧ c' = c
  := by
  constructor
  · intro h
    obtain ⟨b, _, hboth, -⟩ := returns_bind_iff.mp h
    obtain ⟨tok, htok, -, hb⟩ := returns_bothAt_iff.mp hboth
    by_cases hdot : tok.kind = .DOT
    · rw [if_pos hdot] at hb
      obtain ⟨mem, hmem, rfl⟩ := hb
      by_cases hname : mem.kind = .NAME
      · obtain ⟨stop, hstop⟩ : ∃ stop, tokens[i + 2]? = some stop := by
          obtain ⟨_, _, hboth', hrest⟩ := returns_bind_iff.mp h
          obtain ⟨rfl, -⟩ := hboth'.unique hboth
          rw [decide_eq_true hname, if_pos rfl] at hrest
          obtain ⟨stop, _, hstop, -⟩ := returns_bind_iff.mp hrest
          exact ⟨stop, (returns_tokenAt_iff.mp hstop).1⟩
        have hdot' : KindAt tokens i .DOT := ⟨tok, htok, hdot⟩
        have hmem' : KindAt tokens (i + 1) .NAME := ⟨mem, hmem, hname⟩
        obtain ⟨hj, rfl⟩ := h.unique (scanName_of_member hdot' hmem' hstop)
        refine ⟨?_, rfl⟩
        split_ifs at hj with hend <;> cases hj
        · exact .field hdot' hmem' hstop hend
        · exact .member hdot' hmem' hstop hend
      · obtain ⟨hj, rfl⟩ := h.unique (scanName_of_not_member htok fun _ => ⟨mem, hmem, hname⟩)
        cases hj
        exact ⟨.noMember ⟨tok, htok, hdot⟩ hmem hname, rfl⟩
    · obtain ⟨hj, rfl⟩ := h.unique (scanName_of_not_member htok fun h => absurd h hdot)
      cases hj
      exact ⟨.alone htok hdot, rfl⟩
  · rintro ⟨h, rfl⟩
    cases h with
    | alone hafter hdot => exact scanName_of_not_member hafter fun h => absurd h hdot
    | noMember hdot hmem hname =>
      obtain ⟨tok, htok, -⟩ := hdot
      exact scanName_of_not_member htok fun _ => ⟨_, hmem, hname⟩
    | field hdot hmem hstop hend =>
      have h := scanName_of_member (c := c') hdot hmem hstop
      rw [if_pos hend] at h
      exact h
    | member hdot hmem hstop hend =>
      have h := scanName_of_member (c := c') hdot hmem hstop
      rw [if_neg hend] at h
      exact h

variable {self : ℕ → P (Option ℕ)}

/-- One type in brackets is looked ahead over. -/
theorem returns_scanBracketedType_iff {i j : ℕ} :
  Returns tokens (scanBracketedType self i) c (some j) c' ↔
    KindAt tokens i .LBRACKET ∧ ∃ a b d, Lines tokens (i + 1) a ∧
      Returns tokens (self a) c (some b) c' ∧ Lines tokens b d ∧ KindAt tokens d .RBRACKET ∧ j = d + 1
  := by
  unfold scanBracketedType
  simp only [returns_thenScan_iff, returns_scanOpen_iff, returns_scanClose_iff]
  constructor
  · rintro ⟨a, _, ⟨hopen, ha, rfl⟩, b, _, hb, d, hd, hclose, rfl, rfl⟩
    exact ⟨hopen, a, b, d, ha, hb, hd, hclose, rfl⟩
  · rintro ⟨hopen, a, b, d, ha, hb, hd, hclose, rfl⟩
    exact ⟨a, _, ⟨hopen, ha, rfl⟩, b, _, hb, d, hd, hclose, rfl, rfl⟩

/-- Two types in brackets are looked ahead over. -/
theorem returns_scanTypePair_iff {sep : TokenKind} {i j : ℕ} :
  Returns tokens (scanTypePair self sep i) c (some j) c' ↔
    KindAt tokens i .LBRACKET ∧ ∃ a b d e l m c₁, Lines tokens (i + 1) a ∧
      Returns tokens (self a) c (some b) c₁ ∧ Lines tokens b d ∧ KindAt tokens d sep ∧
        Lines tokens (d + 1) e ∧ Returns tokens (self e) c₁ (some l) c' ∧ Lines tokens l m ∧
          KindAt tokens m .RBRACKET ∧ j = m + 1
  := by
  unfold scanTypePair
  simp only [returns_thenScan_iff, returns_scanOpen_iff, returns_scanSeparator_iff,
    returns_scanClose_iff]
  constructor
  · rintro ⟨a, _, ⟨hopen, ha, rfl⟩, b, _, hb, e, _, ⟨d, hd, hsep, he, rfl⟩, l, _, hl, m, hm, hclose, rfl,
      rfl⟩
    exact ⟨hopen, a, b, d, e, l, m, _, ha, hb, hd, hsep, he, hl, hm, hclose, rfl⟩
  · rintro ⟨hopen, a, b, d, e, l, m, c₁, ha, hb, hd, hsep, he, hl, hm, hclose, rfl⟩
    exact ⟨a, _, ⟨hopen, ha, rfl⟩, b, _, hb, e, _, ⟨d, hd, hsep, he, rfl⟩, l, _, hl, m, hm, hclose, rfl, rfl⟩

variable {i j : ℕ} {tok : Token} (htok : tokens[i]? = some tok)

include htok

theorem scanTypeEndBody_unary {k : TokenKind} {opening : String} {f : TypeTree → TypeTree}
    (hhead : Unary k opening f) (hk : tok.kind = k) :
  Returns tokens (scanTypeEndBody self i) c (some j) c' ↔
    Returns tokens (scanBracketedType self (i + 1)) c (some j) c'
  := by
  unfold scanTypeEndBody Returns
  rw [bind_of_returns (returns_tokenAt_iff.mpr ⟨htok, rfl⟩), hk]
  cases hhead <;> rfl

theorem scanTypeEndBody_binary {k sep : TokenKind} {opening between : String}
    {f : TypeTree → TypeTree → TypeTree} (hhead : Binary k opening sep between f) (hk : tok.kind = k) :
  Returns tokens (scanTypeEndBody self i) c (some j) c' ↔
    Returns tokens (scanTypePair self sep (i + 1)) c (some j) c'
  := by
  unfold scanTypeEndBody Returns
  rw [bind_of_returns (returns_tokenAt_iff.mpr ⟨htok, rfl⟩), hk]
  cases hhead <;> rfl

theorem scanTypeEndBody_basic (hk : tok.kind ∈ basicKinds) :
  Returns tokens (scanTypeEndBody self i) c (some j) c' ↔ j = i + 1 ∧ c' = c
  := by
  have hbody : Returns tokens (scanTypeEndBody self i) c (some (i + 1)) c := by
    apply returns_bind (returns_tokenAt_iff.mpr ⟨htok, rfl⟩)
    unfold basicKinds at hk
    simp only [hk, if_true]
    exact returns_pure _
  constructor
  · intro h
    obtain ⟨hj, rfl⟩ := h.unique hbody
    cases hj
    exact ⟨rfl, rfl⟩
  · rintro ⟨rfl, rfl⟩
    exact hbody

theorem scanTypeEndBody_name (hk : tok.kind = .NAME) :
  Returns tokens (scanTypeEndBody self i) c (some j) c' ↔ NameEnd tokens (i + 1) j ∧ c' = c
  := by
  rw [← returns_scanName_iff]
  unfold scanTypeEndBody
  unfold Returns
  rw [bind_of_returns (returns_tokenAt_iff.mpr ⟨htok, rfl⟩), hk]
  rfl

theorem not_returns_scanTypeEndBody
    (hk : tok.kind ∉ [TokenKind.ARR, .MAP, .REF, .TSK, .FN, .INT, .FLT, .BOL, .STR, .NUL_TYPE, .NAME]) :
  ¬ Returns tokens (scanTypeEndBody self i) c (some j) c'
  := by
  simp only [List.mem_cons, List.not_mem_nil, or_false, not_or] at hk
  unfold scanTypeEndBody
  unfold Returns
  rw [bind_of_returns (returns_tokenAt_iff.mpr ⟨htok, rfl⟩)]
  simp only [List.mem_cons, List.not_mem_nil, hk, or_self, if_false]
  intro h
  obtain ⟨hnone, -⟩ := returns_pure_iff.mp h
  cases hnone

end

/-! ### What the scan finds -/

/-- What the body of `scan_type_end` finds is scanned as a type, when this holds for its calls. -/
theorem scanAt_of_body {self : ℕ → P (Option ℕ)}
    (hself : ∀ i j c c', Returns tokens (self i) c (some j) c' → ScanAt tokens i j ∧ c' = c)
    {i j : ℕ} {c c' : Cursor} (h : Returns tokens (scanTypeEndBody self i) c (some j) c') :
  ScanAt tokens i j ∧ c' = c
  := by
  obtain ⟨tok, _, hread, -⟩ := returns_bind_iff.mp h
  obtain ⟨htok, -⟩ := returns_tokenAt_iff.mp hread
  rcases starts_cases tok.kind with ⟨opening, f, hhead⟩ | ⟨opening, sep, between, f, hhead⟩ | hk | hk | hk
  · obtain ⟨hopen, a, b, d, ha, hb, hd, hclose, rfl⟩ :=
      returns_scanBracketedType_iff.mp ((scanTypeEndBody_unary htok hhead rfl).mp h)
    obtain ⟨hscan, rfl⟩ := hself _ _ _ _ hb
    exact ⟨.unary hhead ⟨tok, htok, rfl⟩ hopen ha hscan hd hclose, rfl⟩
  · obtain ⟨hopen, a, b, d, e, l, m, c₁, ha, hb, hd, hsep, he, hl, hm, hclose, rfl⟩ :=
      returns_scanTypePair_iff.mp ((scanTypeEndBody_binary htok hhead rfl).mp h)
    obtain ⟨hscan, rfl⟩ := hself _ _ _ _ hb
    obtain ⟨hscan', rfl⟩ := hself _ _ _ _ hl
    exact ⟨.binary hhead ⟨tok, htok, rfl⟩ hopen ha hscan hd hsep he hscan' hm hclose, rfl⟩
  · obtain ⟨rfl, rfl⟩ := (scanTypeEndBody_basic htok hk).mp h
    exact ⟨.basic htok hk, rfl⟩
  · obtain ⟨hend, rfl⟩ := (scanTypeEndBody_name htok hk).mp h
    exact ⟨.name ⟨tok, htok, hk⟩ hend, rfl⟩
  · exact absurd h (not_returns_scanTypeEndBody htok hk)

theorem scanAt_of_fixFuel (n : ℕ) {i j : ℕ} {c c' : Cursor}
    (h : Returns tokens (fixFuel scanTypeEndBody n i) c (some j) c') :
  ScanAt tokens i j ∧ c' = c
  := by
  induction n generalizing i j c c' with
  | zero => cases h
  | succ n ih => exact scanAt_of_body (fun i j c c' => ih) h

theorem NameEnd.le {i j : ℕ} (h : NameEnd tokens i j) : i ≤ j := by
  cases h <;> omega

theorem ScanAt.lt {i j : ℕ} (h : ScanAt tokens i j) : i < j := by
  induction h with
  | basic => exact Nat.lt_succ_self _
  | name _ hend => exact hend.le
  | unary _ _ _ ha _ hd _ ih =>
    have hle := ha.le
    have hle' := hd.le
    omega
  | binary _ _ _ ha _ hd _ he _ hm _ ih ih' =>
    have hle := ha.le
    have hle' := hd.le
    have hle₂ := he.le
    have hle₃ := hm.le
    omega

/-- Tokens that are scanned as a type are found, with the fuel for the tokens from there on. -/
theorem fixFuel_of_scanAt {i j : ℕ} (h : ScanAt tokens i j) {n : ℕ} (hn : tokens.length < i + n)
    (c : Cursor) :
  Returns tokens (fixFuel scanTypeEndBody n i) c (some j) c
  := by
  induction h generalizing n with
  | @basic i tok htok hkind =>
    have hlt := (List.getElem?_eq_some_iff.mp htok).1
    obtain ⟨n, rfl⟩ : ∃ m, n = m + 1 := ⟨n - 1, by omega⟩
    exact (scanTypeEndBody_basic htok hkind).mpr ⟨rfl, rfl⟩
  | @name i j hkind hend =>
    have hlt := hkind.lt_length
    obtain ⟨tok, htok, hk⟩ := hkind
    obtain ⟨n, rfl⟩ : ∃ m, n = m + 1 := ⟨n - 1, by omega⟩
    exact (scanTypeEndBody_name htok hk).mpr ⟨hend, rfl⟩
  | @unary i a b d k opening f hhead hkind hopen ha h hd hclose ih =>
    have hlt := hkind.lt_length
    have hle := ha.le
    obtain ⟨tok, htok, hk⟩ := hkind
    obtain ⟨n, rfl⟩ : ∃ m, n = m + 1 := ⟨n - 1, by omega⟩
    apply (scanTypeEndBody_unary htok hhead hk).mpr
    exact returns_scanBracketedType_iff.mpr ⟨hopen, a, b, d, ha, ih (by omega), hd, hclose, rfl⟩
  | @binary i a b d e l m k sep opening between f hhead hkind hopen ha h hd hsep he h' hm hclose ih ih' =>
    have hlt := hkind.lt_length
    have hle := ha.le
    have hlt' := h.lt
    have hle' := hd.le
    have hle₂ := he.le
    obtain ⟨tok, htok, hk⟩ := hkind
    obtain ⟨n, rfl⟩ : ∃ m, n = m + 1 := ⟨n - 1, by omega⟩
    apply (scanTypeEndBody_binary htok hhead hk).mpr
    exact returns_scanTypePair_iff.mpr
      ⟨hopen, a, b, d, e, l, m, c, ha, ih (by omega), hd, hsep, he, ih' (by omega), hm, hclose, rfl⟩

/-- The scan finds a position exactly when the tokens up to it are scanned as a type. -/
theorem returns_scanTypeEnd_iff {i j : ℕ} {c c' : Cursor} :
  Returns tokens (scanTypeEnd i) c (some j) c' ↔ ScanAt tokens i j ∧ c' = c
  := by
  constructor
  · exact scanAt_of_fixFuel _
  · rintro ⟨h, rfl⟩
    have hfuel : tokens.length < i + 1 * (tokens.length + 1) := by omega
    exact fixFuel_of_scanAt h hfuel _

end Caster.Parse
