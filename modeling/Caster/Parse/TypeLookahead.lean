import Caster.Parse.TypeScans

/-!
# Looking ahead and parsing

The scan that looks ahead over the type of a destructuring takes a member before a comma for a field, also
where the comma is that of a map.  Without ends of lines, the scan finds the end that the parser of
destructurings finds exactly for the types that have no such map.
-/

namespace Caster.Parse

open TokenParser

variable {tokens : List Token}

/-! ### The parser behind the scan -/

/-- No module and its member stand before a comma between two positions. -/
def NoMemberKey (tokens : List Token) (i j : ℕ) : Prop :=
  ∀ k, i ≤ k → k + 3 < j → KindAt tokens k .NAME → KindAt tokens (k + 1) .DOT →
    KindAt tokens (k + 2) .NAME → ¬ KindAt tokens (k + 3) .COMMA

/-- A name before the field that a destructuring takes. -/
structure FieldAt (tokens : List Token) (i : ℕ) : Prop where
  name : KindAt tokens i .NAME
  dot : KindAt tokens (i + 1) .DOT
  member : KindAt tokens (i + 2) .NAME
  stop : ∃ stop, tokens[i + 3]? = some stop ∧ stop.kind ∈ fieldEnds

theorem KindAt.not_mem_fieldEnds {i : ℕ} {k : TokenKind} {tok : Token} (h : KindAt tokens i k)
    (hk : k ∉ fieldEnds) (htok : tokens[i]? = some tok) :
  tok.kind ∉ fieldEnds
  := by
  obtain ⟨tok', htok', rfl⟩ := h
  rw [htok] at htok'
  cases htok'
  exact hk

theorem Lines.refl_of_kindAt {i : ℕ} {k : TokenKind} (h : KindAt tokens i k) (hk : k ≠ .NEWLINE) :
  Lines tokens i i
  := by
  obtain ⟨tok, htok, rfl⟩ := h
  exact lines_refl_iff.mpr ⟨tok, htok, hk⟩

/-- Where no line ends, there are no ends of lines to pass. -/
theorem Lines.eq_of_flat {a b : ℕ} (h : Lines tokens a b)
    (hflat : ∀ k, a ≤ k → k < b → ¬ KindAt tokens k .NEWLINE) :
  a = b
  := by
  obtain hlt | heq := h.le.lt_or_eq
  · exact absurd (h.lines a (le_refl a) hlt) (hflat a (le_refl a) hlt)
  · exact heq

theorem TypeAt.lines {i j : ℕ} {t : TypeTree} (h : TypeAt tokens i t j) : Lines tokens i i := by
  cases h with
  | basic htok hkind =>
    refine lines_refl_iff.mpr ⟨_, htok, ?_⟩
    intro hk
    rw [hk] at hkind
    revert hkind
    decide
  | name htok hkind => exact .refl_of_kindAt ⟨_, htok, hkind⟩ (by decide)
  | member htok hkind => exact .refl_of_kindAt ⟨_, htok, hkind⟩ (by decide)
  | unary hhead hkind =>
    apply Lines.refl_of_kindAt hkind
    cases hhead <;> decide
  | binary hhead hkind =>
    apply Lines.refl_of_kindAt hkind
    cases hhead <;> decide

theorem KindAt.not_basic {i : ℕ} {tok : Token} (h : KindAt tokens i .NAME) (htok : tokens[i]? = some tok) :
  tok.kind ∉ basicKinds
  := by
  obtain ⟨tok', htok', hk⟩ := h
  rw [htok] at htok'
  cases htok'
  rw [hk]
  decide

theorem Unary.ne_name {k : TokenKind} {opening : String} {f : TypeTree → TypeTree}
    (h : Unary k opening f) : k ≠ .NAME := by
  cases h <;> decide

theorem Binary.ne_name {k sep : TokenKind} {opening between : String} {f : TypeTree → TypeTree → TypeTree}
    (h : Binary k opening sep between f) : k ≠ .NAME := by
  cases h <;> decide

theorem Binary.sep_ne_dot {k sep : TokenKind} {opening between : String}
    {f : TypeTree → TypeTree → TypeTree} (h : Binary k opening sep between f) : sep ≠ .DOT := by
  cases h <;> decide

theorem Binary.sep_ne_name {k sep : TokenKind} {opening between : String}
    {f : TypeTree → TypeTree → TypeTree} (h : Binary k opening sep between f) : sep ≠ .NAME := by
  cases h <;> decide

/-- A type that starts with a module ends behind its member. -/
theorem TypeAt.end_of_module {i j : ℕ} {t : TypeTree} (h : TypeAt tokens i t j)
    (hname : KindAt tokens i .NAME) (hdot : KindAt tokens (i + 1) .DOT) :
  j = i + 3 ∧ KindAt tokens (i + 2) .NAME
  := by
  cases h with
  | basic htok hkind => exact absurd hkind (hname.not_basic htok)
  | name htok hkind hafter hafterDot =>
    obtain ⟨after, hafter', hk⟩ := hdot
    rw [hafter] at hafter'
    cases hafter'
    exact absurd hk hafterDot
  | member htok hkind _ hmem hmemName => exact ⟨rfl, _, hmem, hmemName⟩
  | unary hhead hkind => exact absurd (hkind.unique hname) hhead.ne_name
  | binary hhead hkind => exact absurd (hkind.unique hname) hhead.ne_name

/-- What the parser reads as a type is scanned as one, unless the scan takes a member for a field. -/
theorem scanAt_of_typeAt {i j : ℕ} {t : TypeTree} (h : TypeAt tokens i t j)
    (hkeys : NoMemberKey tokens i j)
    (hstop : KindAt tokens i .NAME → KindAt tokens (i + 1) .DOT → KindAt tokens (i + 2) .NAME →
      ∃ stop, tokens[i + 3]? = some stop ∧ stop.kind ∉ fieldEnds) :
  ScanAt tokens i j
  := by
  induction h with
  | basic htok hkind => exact .basic htok hkind
  | name htok hkind hafter hdot => exact .name ⟨_, htok, hkind⟩ (.alone hafter hdot)
  | member htok hkind hdot hmem hname =>
    obtain ⟨stop, hstop, hend⟩ := hstop ⟨_, htok, hkind⟩ hdot ⟨_, hmem, hname⟩
    exact .name ⟨_, htok, hkind⟩ (.member hdot ⟨_, hmem, hname⟩ hstop hend)
  | unary hhead hkind hopen h hclose ih =>
    refine .unary hhead hkind hopen h.lines (ih ?_ ?_) (.refl_of_kindAt hclose (by decide)) hclose
    · intro k hle hlt
      exact hkeys k (by omega) (by omega)
    · intro hname hdot _
      obtain ⟨rfl, -⟩ := h.end_of_module hname hdot
      obtain ⟨tok, htok, -⟩ := id hclose
      exact ⟨tok, htok, hclose.not_mem_fieldEnds (by decide) htok⟩
  | @binary i j l k sep opening between f t u hhead hkind hopen h hsep h' hclose ih ih' =>
    have hlt := h.lt
    have hlt' := h'.lt
    have hsepLine : sep ≠ .NEWLINE := by
      cases hhead <;> decide
    refine .binary hhead hkind hopen h.lines (ih ?_ ?_) (.refl_of_kindAt hsep hsepLine) hsep h'.lines
      (ih' ?_ ?_) (.refl_of_kindAt hclose (by decide)) hclose
    · intro k hle hlt
      exact hkeys k (by omega) (by omega)
    · intro hname hdot hmem
      obtain ⟨rfl, -⟩ := h.end_of_module hname hdot
      obtain ⟨tok, htok, -⟩ := id hsep
      refine ⟨tok, htok, hsep.not_mem_fieldEnds ?_ htok⟩
      cases hhead with
      | MAP => exact absurd hsep (hkeys (i + 2) (by omega) (by omega) hname hdot hmem)
      | FN => decide
    · intro k hle hlt
      exact hkeys k (by omega) (by omega)
    · intro hname hdot _
      obtain ⟨rfl, -⟩ := h'.end_of_module hname hdot
      obtain ⟨tok, htok, -⟩ := id hclose
      exact ⟨tok, htok, hclose.not_mem_fieldEnds (by decide) htok⟩

/-- The scan over a module goes on over its member, or leaves a dot behind it. -/
theorem ScanAt.end_of_module {i j : ℕ} (h : ScanAt tokens i j) (hname : KindAt tokens i .NAME)
    (hdot : KindAt tokens (i + 1) .DOT) :
  KindAt tokens j .DOT ∨ j = i + 3
  := by
  cases h with
  | basic htok hkind => exact absurd hkind (hname.not_basic htok)
  | name _ hend =>
    cases hend with
    | alone => exact .inl hdot
    | noMember => exact .inl hdot
    | field => exact .inl hdot
    | member => exact .inr rfl
  | unary hhead hkind => exact absurd (hkind.unique hname) hhead.ne_name
  | binary hhead hkind => exact absurd (hkind.unique hname) hhead.ne_name

/-- What is scanned as a type on one line is read as one, unless the scan stops behind a module. -/
theorem typeAt_of_scanAt {i j : ℕ} (h : ScanAt tokens i j)
    (hflat : ∀ k, i ≤ k → k < j → ¬ KindAt tokens k .NEWLINE)
    (hmodule : KindAt tokens i .NAME → KindAt tokens (i + 1) .DOT → j = i + 3) :
  ∃ t, TypeAt tokens i t j
  := by
  induction h with
  | basic htok hkind => exact ⟨_, .basic htok hkind⟩
  | name hkind hend =>
    obtain ⟨tok, htok, hk⟩ := id hkind
    cases hend with
    | alone hafter hdot => exact ⟨_, .name htok hk hafter hdot⟩
    | noMember hdot =>
      have hj := hmodule hkind hdot
      omega
    | field hdot =>
      have hj := hmodule hkind hdot
      omega
    | member hdot hmem =>
      obtain ⟨mem, hmem, hname⟩ := hmem
      exact ⟨_, .member htok hk hdot hmem hname⟩
  | unary hhead hkind hopen ha h hd hclose ih =>
    have hlt := h.lt
    have hle := hd.le
    obtain rfl := ha.eq_of_flat fun k hle hlt => hflat k (by omega) (by omega)
    obtain rfl := hd.eq_of_flat fun k hle hlt => hflat k (by omega) (by omega)
    obtain ⟨t, ht⟩ := ih (fun k hle hlt => hflat k (by omega) (by omega)) fun hname hdot =>
      (h.end_of_module hname hdot).resolve_left fun hdot' => absurd (hdot'.unique hclose) (by decide)
    exact ⟨_, .unary hhead hkind hopen ht hclose⟩
  | binary hhead hkind hopen ha h hd hsep he h' hm hclose ih ih' =>
    have hlt := h.lt
    have hlt' := h'.lt
    have hle := hd.le
    have hle' := he.le
    have hle₂ := hm.le
    obtain rfl := ha.eq_of_flat fun k hle hlt => hflat k (by omega) (by omega)
    obtain rfl := hd.eq_of_flat fun k hle hlt => hflat k (by omega) (by omega)
    obtain rfl := he.eq_of_flat fun k hle hlt => hflat k (by omega) (by omega)
    obtain rfl := hm.eq_of_flat fun k hle hlt => hflat k (by omega) (by omega)
    obtain ⟨t, ht⟩ := ih (fun k hle hlt => hflat k (by omega) (by omega)) fun hname hdot =>
      (h.end_of_module hname hdot).resolve_left fun hdot' => hhead.sep_ne_dot (hsep.unique hdot')
    obtain ⟨u, hu⟩ := ih' (fun k hle hlt => hflat k (by omega) (by omega)) fun hname hdot =>
      (h'.end_of_module hname hdot).resolve_left fun hdot' => absurd (hdot'.unique hclose) (by decide)
    exact ⟨_, .binary hhead hkind hopen ht hsep hu hclose⟩

theorem KindAt.not_mem_of_fieldEnds {i : ℕ} {tok : Token} (h : KindAt tokens i .COMMA)
    (htok : tokens[i]? = some tok) :
  ¬ tok.kind ∉ fieldEnds
  := by
  obtain ⟨tok', htok', hk⟩ := h
  rw [htok] at htok'
  cases htok'
  rw [hk]
  decide

/-- The scan does not end between a member and a comma. -/
theorem ScanAt.not_comma {i j k : ℕ} (h : ScanAt tokens i j) (hle : i ≤ k) (hj : k + 3 = j)
    (hmem : KindAt tokens (k + 2) .NAME) :
  ¬ KindAt tokens (k + 3) .COMMA
  := by
  intro hcomma
  cases h with
  | basic => omega
  | name hkind hend =>
    cases hend with
    | alone => omega
    | noMember => omega
    | field => omega
    | member _ _ hstop hend =>
      obtain rfl : i = k := by omega
      exact hcomma.not_mem_of_fieldEnds hstop hend
  | unary _ _ _ _ _ _ hclose =>
    obtain rfl := Nat.succ_inj.mp hj
    exact absurd (hmem.unique hclose) (by decide)
  | binary _ _ _ _ _ _ _ _ _ _ hclose =>
    obtain rfl := Nat.succ_inj.mp hj
    exact absurd (hmem.unique hclose) (by decide)

/-- A type that is scanned on one line has no map from the type of a module. -/
theorem ScanAt.noMemberKey {i j : ℕ} (h : ScanAt tokens i j)
    (hflat : ∀ k, i ≤ k → k < j → ¬ KindAt tokens k .NEWLINE) :
  NoMemberKey tokens i j
  := by
  induction h with
  | basic =>
    intro k hle hlt
    omega
  | name hkind hend =>
    intro k hle hlt
    cases hend <;> omega
  | @unary i a b d k' opening f hhead hkind hopen ha h hd hclose ih =>
    have hlt := h.lt
    have hle := hd.le
    obtain rfl := ha.eq_of_flat fun k hle hlt => hflat k (by omega) (by omega)
    obtain rfl := hd.eq_of_flat fun k hle hlt => hflat k (by omega) (by omega)
    intro k hk hk' hname hdot hmem hcomma
    obtain rfl | rfl | hk := (by omega : k = i ∨ k = i + 1 ∨ i + 2 ≤ k)
    · exact hhead.ne_name (hkind.unique hname)
    · exact absurd (hopen.unique hname) (by decide)
    · obtain hlast | hin := (by omega : k + 3 = b ∨ k + 3 < b)
      · rw [hlast] at hcomma
        exact absurd (hclose.unique hcomma) (by decide)
      · exact ih (fun k hle hlt => hflat k (by omega) (by omega)) k hk hin hname hdot hmem hcomma
  | @binary i a b d e l m k' sep opening between f hhead hkind hopen ha h hd hsep he h' hm hclose ih ih' =>
    have hlt := h.lt
    have hlt' := h'.lt
    have hle := hd.le
    have hle' := he.le
    have hle₂ := hm.le
    obtain rfl := ha.eq_of_flat fun k hle hlt => hflat k (by omega) (by omega)
    obtain rfl := hd.eq_of_flat fun k hle hlt => hflat k (by omega) (by omega)
    obtain rfl := he.eq_of_flat fun k hle hlt => hflat k (by omega) (by omega)
    obtain rfl := hm.eq_of_flat fun k hle hlt => hflat k (by omega) (by omega)
    intro k hk hk' hname hdot hmem hcomma
    -- the positions before, in, between and behind the two types
    obtain rfl | rfl | hin | hlast | rfl | rfl | rfl | hin | hlast :=
      (by omega : k = i ∨ k = i + 1 ∨ (i + 2 ≤ k ∧ k + 3 < b) ∨ (i + 2 ≤ k ∧ k + 3 = b) ∨ b = k + 2 ∨
        b = k + 1 ∨ b = k ∨ (b + 1 ≤ k ∧ k + 3 < l) ∨ (b + 1 ≤ k ∧ k + 3 = l))
    · exact hhead.ne_name (hkind.unique hname)
    · exact absurd (hopen.unique hname) (by decide)
    · exact ih (fun k hle hlt => hflat k (by omega) (by omega)) k hin.1 hin.2 hname hdot hmem hcomma
    · exact h.not_comma hlast.1 hlast.2 hmem hcomma
    · exact hhead.sep_ne_name (hsep.unique hmem)
    · exact hhead.sep_ne_dot (hsep.unique hdot)
    · exact hhead.sep_ne_name (hsep.unique hname)
    · exact ih' (fun k hle hlt => hflat k (by omega) (by omega)) k hin.1 hin.2 hname hdot hmem hcomma
    · exact h'.not_comma hlast.1 hlast.2 hmem hcomma

theorem FieldAt.scanAt {i : ℕ} (h : FieldAt tokens i) : ScanAt tokens i (i + 1) := by
  obtain ⟨stop, hstop, hend⟩ := h.stop
  exact .name h.name (.field h.dot h.member hstop hend)

/-- The member behind a module, if there is one, is not a field. -/
def NotField (tokens : List Token) (i : ℕ) : Prop :=
  KindAt tokens i .NAME → KindAt tokens (i + 1) .DOT → KindAt tokens (i + 2) .NAME →
    ∃ stop, tokens[i + 3]? = some stop ∧ stop.kind ∉ fieldEnds

section

variable {c c' : Cursor}

theorem returns_both_iff {p q : P Bool} {b : Bool} :
  Returns tokens (both p q) c b c' ↔
    (∃ c₁, Returns tokens p c true c₁ ∧ Returns tokens q c₁ b c') ∨ (Returns tokens p c false c' ∧ b = false)
  := by
  unfold both
  rw [returns_bind_iff]
  constructor
  · rintro ⟨found, c₁, hp, h⟩
    cases found with
    | true => exact .inl ⟨c₁, hp, h⟩
    | false =>
      obtain ⟨rfl, rfl⟩ := returns_pure_iff.mp h
      exact .inr ⟨hp, rfl⟩
  · rintro (⟨c₁, hp, hq⟩ | ⟨hp, rfl⟩)
    · exact ⟨true, c₁, hp, hq⟩
    · exact ⟨false, c', hp, returns_pure _⟩

theorem returns_peekIs_iff {offset : ℕ} {k : TokenKind} {b : Bool} :
  Returns tokens (peekIs offset k) c b c' ↔
    ∃ tok, tokens[c.pos + offset]? = some tok ∧ b = decide (tok.kind = k) ∧ c' = c
  := by
  unfold peekIs
  simp only [returns_bind_iff, returns_peek_iff, returns_pure_iff]
  constructor
  · rintro ⟨tok, _, ⟨htok, rfl⟩, rfl, rfl⟩
    exact ⟨tok, htok, rfl, rfl⟩
  · rintro ⟨tok, htok, rfl, rfl⟩
    exact ⟨tok, _, ⟨htok, rfl⟩, rfl, rfl⟩

theorem peekIs_of_kindAt {offset : ℕ} {k : TokenKind} (h : KindAt tokens (c.pos + offset) k) :
  Returns tokens (peekIs offset k) c true c
  := by
  obtain ⟨tok, htok, hk⟩ := h
  exact returns_peekIs_iff.mpr ⟨tok, htok, by rw [decide_eq_true hk], rfl⟩

theorem peekIs_of_ne {offset : ℕ} {k : TokenKind} {tok : Token} (htok : tokens[c.pos + offset]? = some tok)
    (hk : tok.kind ≠ k) :
  Returns tokens (peekIs offset k) c false c
  := returns_peekIs_iff.mpr ⟨tok, htok, by rw [decide_eq_false hk], rfl⟩

theorem kindAt_of_peekIs {offset : ℕ} {k : TokenKind} (h : Returns tokens (peekIs offset k) c true c') :
  KindAt tokens (c.pos + offset) k ∧ c' = c
  := by
  obtain ⟨tok, htok, hk, rfl⟩ := returns_peekIs_iff.mp h
  exact ⟨⟨tok, htok, of_decide_eq_true hk.symm⟩, rfl⟩

/-- A module and its member are at the position. -/
def moduleAhead : P Bool := both (peekIs 0 .NAME) (both (peekIs 1 .DOT) (peekIs 2 .NAME))

theorem moduleAhead_iff :
  Returns tokens moduleAhead c true c' ↔
    KindAt tokens c.pos .NAME ∧ KindAt tokens (c.pos + 1) .DOT ∧ KindAt tokens (c.pos + 2) .NAME ∧ c' = c
  := by
  unfold moduleAhead
  constructor
  · intro h
    obtain ⟨_, hname, hrest⟩ | ⟨-, hfalse⟩ := returns_both_iff.mp h
    · obtain ⟨hname, rfl⟩ := kindAt_of_peekIs hname
      obtain ⟨_, hdot, hmem⟩ | ⟨-, hfalse⟩ := returns_both_iff.mp hrest
      · obtain ⟨hdot, rfl⟩ := kindAt_of_peekIs hdot
        obtain ⟨hmem, rfl⟩ := kindAt_of_peekIs hmem
        exact ⟨hname, hdot, hmem, rfl⟩
      · cases hfalse
    · cases hfalse
  · rintro ⟨hname, hdot, hmem, rfl⟩
    apply returns_both_iff.mpr (.inl ⟨_, peekIs_of_kindAt hname, ?_⟩)
    exact returns_both_iff.mpr (.inl ⟨_, peekIs_of_kindAt hdot, peekIs_of_kindAt hmem⟩)

theorem eq_of_peekIs {offset : ℕ} {k : TokenKind} {b : Bool}
    (h : Returns tokens (peekIs offset k) c b c') :
  c' = c
  := by
  obtain ⟨_, _, _, rfl⟩ := returns_peekIs_iff.mp h
  rfl

theorem eq_of_moduleAhead {b : Bool} (h : Returns tokens moduleAhead c b c') : c' = c := by
  obtain ⟨_, hname, hrest⟩ | ⟨hname, -⟩ := returns_both_iff.mp h
  · obtain rfl := eq_of_peekIs hname
    obtain ⟨_, hdot, hmem⟩ | ⟨hdot, -⟩ := returns_both_iff.mp hrest
    · obtain rfl := eq_of_peekIs hdot
      exact eq_of_peekIs hmem
    · exact eq_of_peekIs hdot
  · exact eq_of_peekIs hname

/-- No member is ahead where a type is that does not start with one. -/
theorem moduleAhead_of_typeAt {j : ℕ} {t : TypeTree} (h : TypeAt tokens c.pos t j)
    (hnot : ¬ (KindAt tokens c.pos .NAME ∧ KindAt tokens (c.pos + 1) .DOT)) :
  Returns tokens moduleAhead c false c
  := by
  obtain ⟨tok, htok, -⟩ := h.lines.stop
  by_cases hname : tok.kind = .NAME
  · have hname' : KindAt tokens c.pos .NAME := ⟨tok, htok, hname⟩
    obtain ⟨after, hafter, hdot⟩ : ∃ after, tokens[c.pos + 1]? = some after ∧ after.kind ≠ .DOT := by
      cases h with
      | basic htok' hkind => exact absurd hkind (hname'.not_basic htok')
      | name _ _ hafter hdot => exact ⟨_, hafter, hdot⟩
      | member _ _ hdot => exact absurd ⟨hname', hdot⟩ hnot
      | unary hhead hkind => exact absurd (hkind.unique hname') hhead.ne_name
      | binary hhead hkind => exact absurd (hkind.unique hname') hhead.ne_name
    apply returns_both_iff.mpr (.inl ⟨_, peekIs_of_kindAt hname', ?_⟩)
    exact returns_both_iff.mpr (.inr ⟨peekIs_of_ne hafter hdot, rfl⟩)
  · exact returns_both_iff.mpr (.inr ⟨peekIs_of_ne htok hname, rfl⟩)

theorem parseDestructureType_eq :
  parseDestructureType = (do
    if ← moduleAhead then
      let afterMember := (← peek 3).kind
      if afterMember ∈ fieldEnds then
        let tok ← cur
        advance
        pure ⟨normalizeSourceTypeName tok.text, tok⟩
      else parseType
    else parseType)
  := rfl

/-- The parser of the types of destructurings takes the name before a field, or else a type. -/
theorem parseDestructureType_iff :
  (∃ r, Returns tokens parseDestructureType c r c') ↔
    (FieldAt tokens c.pos ∧ c' = next c) ∨
      (NotField tokens c.pos ∧ ∃ r, Returns tokens parseType c r c')
  := by
  rw [parseDestructureType_eq]
  constructor
  · rintro ⟨r, h⟩
    obtain ⟨b, c₁, hahead, hrest⟩ := returns_bind_iff.mp h
    obtain rfl := eq_of_moduleAhead hahead
    cases b with
    | true =>
      obtain ⟨hname, hdot, hmem, -⟩ := moduleAhead_iff.mp hahead
      rw [if_pos rfl] at hrest
      obtain ⟨stop, _, hpeek, hfield⟩ := returns_bind_iff.mp hrest
      obtain ⟨hstop, rfl⟩ := returns_peek_iff.mp hpeek
      by_cases hend : stop.kind ∈ fieldEnds
      · simp only [hend, if_true] at hfield
        obtain ⟨tok, _, hcur, htaken⟩ := returns_bind_iff.mp hfield
        obtain ⟨htok, rfl⟩ := returns_cur_iff.mp hcur
        obtain ⟨_, c₂, hadvance, hpure⟩ := returns_bind_iff.mp htaken
        obtain ⟨rfl, rfl⟩ := returns_pure_iff.mp hpure
        obtain ⟨-, rfl⟩ := hadvance.unique returns_advance
        exact .inl ⟨⟨hname, hdot, hmem, stop, hstop, hend⟩, rfl⟩
      · simp only [hend, if_false] at hfield
        exact .inr ⟨fun _ _ _ => ⟨stop, hstop, hend⟩, r, hfield⟩
    | false =>
      refine .inr ⟨fun hname hdot hmem => ?_, r, hrest⟩
      obtain ⟨hfalse, -⟩ := hahead.unique (moduleAhead_iff.mpr ⟨hname, hdot, hmem, rfl⟩)
      cases hfalse
  · rintro (⟨hfield, rfl⟩ | ⟨hnot, r, hr⟩)
    · obtain ⟨stop, hstop, hend⟩ := hfield.stop
      obtain ⟨tok, htok, -⟩ := hfield.name
      refine ⟨⟨normalizeSourceTypeName tok.text, tok⟩, ?_⟩
      apply returns_bind (moduleAhead_iff.mpr ⟨hfield.name, hfield.dot, hfield.member, rfl⟩)
      rw [if_pos rfl]
      apply returns_bind (returns_peek_iff.mpr ⟨hstop, rfl⟩)
      simp only [hend, if_true]
      apply returns_bind (cur_returns htok)
      exact returns_bind returns_advance (returns_pure _)
    · obtain ⟨-, -, t, ht, -⟩ := parseType_returns_iff.mp hr
      refine ⟨r, ?_⟩
      by_cases hmodule : KindAt tokens c.pos .NAME ∧ KindAt tokens (c.pos + 1) .DOT
      · obtain ⟨-, hmem⟩ := ht.end_of_module hmodule.1 hmodule.2
        obtain ⟨stop, hstop, hend⟩ := hnot hmodule.1 hmodule.2 hmem
        apply returns_bind (moduleAhead_iff.mpr ⟨hmodule.1, hmodule.2, hmem, rfl⟩)
        rw [if_pos rfl]
        apply returns_bind (returns_peek_iff.mpr ⟨hstop, rfl⟩)
        simp only [hend, if_false]
        exact hr
      · exact returns_bind (moduleAhead_of_typeAt ht hmodule) hr

end

/-- The parser of types can end at a position exactly when the tokens up to it spell a type. -/
theorem exists_parseType_iff {i j : ℕ} {flag : Bool} :
  (∃ r, Returns tokens parseType ⟨i, flag⟩ r ⟨j, flag⟩) ↔ ∃ t, TypeAt tokens i t j
  := by
  constructor
  · rintro ⟨r, hr⟩
    obtain ⟨-, -, t, ht, -⟩ := parseType_returns_iff.mp hr
    exact ⟨t, ht⟩
  · rintro ⟨t, ht⟩
    obtain ⟨tok, htok, -⟩ := ht.lines.stop
    refine ⟨⟨String.ofList t.text, tok⟩, ?_⟩
    exact parseType_returns_iff.mpr ⟨htok, rfl, t, ht, String.toList_ofList⟩

/-- The scan over a member that is not a field goes on over it. -/
theorem ScanAt.end_of_member {i j : ℕ} (h : ScanAt tokens i j) (hname : KindAt tokens i .NAME)
    (hdot : KindAt tokens (i + 1) .DOT) (hmem : KindAt tokens (i + 2) .NAME) (hnot : ¬ FieldAt tokens i) :
  j = i + 3 ∧ ∃ stop, tokens[i + 3]? = some stop ∧ stop.kind ∉ fieldEnds
  := by
  cases h with
  | basic htok hkind => exact absurd hkind (hname.not_basic htok)
  | name _ hend =>
    cases hend with
    | alone hafter hne =>
      obtain ⟨after, hafter', hk⟩ := hdot
      rw [hafter] at hafter'
      cases hafter'
      exact absurd hk hne
    | noMember _ hmem' hne =>
      obtain ⟨mem, hmem, hk⟩ := hmem
      rw [hmem'] at hmem
      cases hmem
      exact absurd hk hne
    | field _ _ hstop hend => exact absurd ⟨hname, hdot, hmem, _, hstop, hend⟩ hnot
    | member _ _ hstop hend => exact ⟨rfl, _, hstop, hend⟩
  | unary hhead hkind => exact absurd (hkind.unique hname) hhead.ne_name
  | binary hhead hkind => exact absurd (hkind.unique hname) hhead.ne_name

theorem ScanAt.unique {i j j' : ℕ} (h : ScanAt tokens i j) (h' : ScanAt tokens i j') : j = j' := by
  have hscan := returns_scanTypeEnd_iff.mpr ⟨h, (rfl : (⟨i, false⟩ : Cursor) = ⟨i, false⟩)⟩
  obtain ⟨hj, -⟩ := hscan.unique (returns_scanTypeEnd_iff.mpr ⟨h', rfl⟩)
  exact Option.some.inj hj

/-- On one line, the scan that looks ahead over the type of a destructuring and the parser of that type
find the same end, but for two kinds of tokens: the scan finds no type where a map is from the type of a
module, and the parser finds none where a module has no member. -/
theorem scanTypeEnd_agrees {tokens : List Token} {i j : ℕ} {flag : Bool} (c : Cursor)
    (hflat : ∀ k, i ≤ k → k < j → ¬ KindAt tokens k .NEWLINE) :
  (∃ r, Returns tokens parseDestructureType ⟨i, flag⟩ r ⟨j, flag⟩) ∧ NoMemberKey tokens i j ↔
    Returns tokens (scanTypeEnd i) c (some j) c ∧
      (KindAt tokens i .NAME → KindAt tokens (i + 1) .DOT → KindAt tokens (i + 2) .NAME)
  := by
  rw [parseDestructureType_iff, exists_parseType_iff, returns_scanTypeEnd_iff]
  constructor
  · rintro ⟨⟨hfield, hj⟩ | ⟨hnot, t, ht⟩, hkeys⟩
    · obtain rfl : j = i + 1 := (Cursor.mk.inj hj).1
      exact ⟨⟨hfield.scanAt, rfl⟩, fun _ _ => hfield.member⟩
    · exact ⟨⟨scanAt_of_typeAt ht hkeys hnot, rfl⟩, fun hname hdot => (ht.end_of_module hname hdot).2⟩
  · rintro ⟨⟨hscan, -⟩, hmember⟩
    refine ⟨?_, hscan.noMemberKey hflat⟩
    by_cases hfield : FieldAt tokens i
    · obtain rfl := hscan.unique hfield.scanAt
      exact .inl ⟨hfield, rfl⟩
    · refine .inr ⟨fun hname hdot hmem => (hscan.end_of_member hname hdot hmem hfield).2, ?_⟩
      apply typeAt_of_scanAt hscan hflat
      intro hname hdot
      exact (hscan.end_of_member hname hdot (hmember hname hdot) hfield).1

/-- A map from the type of a module, before the name of a field. -/
def mapFromModule : List Token :=
  [⟨.MAP, "MAP", 1, 2⟩, ⟨.LBRACKET, "[", 1, 5⟩, ⟨.NAME, "M", 1, 6⟩, ⟨.DOT, ".", 1, 7⟩, ⟨.NAME, "T", 1, 8⟩,
    ⟨.COMMA, ",", 1, 9⟩, ⟨.INT, "INT", 1, 11⟩, ⟨.RBRACKET, "]", 1, 14⟩, ⟨.NAME, "x", 1, 16⟩]

theorem mapFromModule_not_scanned :
  (∃ t, TypeAt mapFromModule 0 t 8) ∧ ¬ Returns mapFromModule (scanTypeEnd 0) ⟨0, false⟩ (some 8) ⟨0, false⟩
  := by
  constructor
  · exact ⟨_, .binary .MAP ⟨_, rfl, rfl⟩ ⟨_, rfl, rfl⟩ (.member rfl rfl ⟨_, rfl, rfl⟩ rfl rfl) ⟨_, rfl, rfl⟩
      (.basic rfl (by decide)) ⟨_, rfl, rfl⟩⟩
  · intro hscan
    have hflat : ∀ k, 0 ≤ k → k < 8 → ¬ KindAt mapFromModule k .NEWLINE := by
      rintro k - hlt ⟨tok, htok, hk⟩
      interval_cases k <;> cases htok <;> cases hk
    obtain ⟨-, hkeys⟩ := (@scanTypeEnd_agrees _ _ _ false ⟨0, false⟩ hflat).mpr
      ⟨hscan, fun hname => absurd (hname.unique ⟨_, rfl, rfl⟩) (by decide)⟩
    exact hkeys 2 (by decide) (by decide) ⟨_, rfl, rfl⟩ ⟨_, rfl, rfl⟩ ⟨_, rfl, rfl⟩ ⟨_, rfl, rfl⟩

end Caster.Parse
