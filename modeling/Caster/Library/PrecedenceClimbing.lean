import Mathlib.Data.List.Basic
import Mathlib.Tactic

/-!
# Precedence climbing

Expressions are made of atoms, groups, prefix operators that bind tighter than all binary ones,
and left-associative binary operators of several levels.  However the tokens of an expression
were put together, they are those of one tree that follows the levels, and a parser whose
functions follow the rules of precedence climbing returns this tree.
-/

namespace PrecedenceClimbing

/-- What tokens may be in an expression.  The level of a token that is no binary operator is
zero, and the tokens that end an expression are no operators. -/
structure Grammar (τ : Type*) where
  atom : τ → Bool
  opening : τ → Bool
  closing : τ → Bool
  prefixOp : τ → Bool
  level : τ → ℕ
  final : τ → Bool
  level_closing : ∀ t, closing t = true → level t = 0
  level_final : ∀ t, final t = true → level t = 0

variable {τ : Type*} {G : Grammar τ}

/-- The tokens of an expression. -/
inductive Grammar.Complete (G : Grammar τ) : List τ → Prop
  | atom {t : τ} (ht : G.atom t = true) : Complete G [t]
  | group {o c : τ} {ts : List τ} (ho : G.opening o = true) (hc : G.closing c = true)
      (h : Complete G ts) : Complete G (o :: ts ++ [c])
  | unary {t : τ} {ts : List τ} (ht : G.prefixOp t = true) (h : Complete G ts) :
      Complete G (t :: ts)
  | binary {t : τ} {ts ts' : List τ} (ht : 0 < G.level t) (h : Complete G ts) (h' : Complete G ts') :
      Complete G (ts ++ t :: ts')

/-- A tree of operators. -/
inductive Tree (τ : Type*) where
  | leaf (t : τ)
  | group (o : τ) (inner : Tree τ) (c : τ)
  | unary (t : τ) (operand : Tree τ)
  | binary (t : τ) (left right : Tree τ)

/-- The tokens of a tree. -/
def Tree.tokens : Tree τ → List τ
  | leaf t => [t]
  | group o inner c => o :: inner.tokens ++ [c]
  | unary t operand => t :: operand.tokens
  | binary t left right => left.tokens ++ t :: right.tokens

/-- A tree is no binary operator. -/
def Tree.IsOperand : Tree τ → Prop
  | binary _ _ _ => False
  | _ => True

/-- A tree binds at least as tightly as a level. -/
def Grammar.BindsAt (G : Grammar τ) (min : ℕ) : Tree τ → Prop
  | .binary t _ _ => min ≤ G.level t
  | _ => True

/-- A tree follows the levels of its operators. -/
def Grammar.Follows (G : Grammar τ) : Tree τ → Prop
  | .leaf t => G.atom t = true
  | .group o inner c => G.opening o = true ∧ G.closing c = true ∧ G.Follows inner
  | .unary t operand => G.prefixOp t = true ∧ operand.IsOperand ∧ G.Follows operand
  | .binary t left right =>
    0 < G.level t ∧ G.BindsAt (G.level t) left ∧ G.BindsAt (G.level t + 1) right ∧
      G.Follows left ∧ G.Follows right

theorem Tree.IsOperand.bindsAt {t : Tree τ} (h : t.IsOperand) (min : ℕ) : G.BindsAt min t := by
  cases t with
  | binary t left right => exact h.elim
  | leaf t => trivial
  | group o inner c => trivial
  | unary t operand => trivial

theorem Grammar.BindsAt.mono {min min' : ℕ} {t : Tree τ} (h : G.BindsAt min t) (hle : min' ≤ min) :
  G.BindsAt min' t
  := by
  cases t with
  | binary t left right => exact hle.trans h
  | leaf t => trivial
  | group o inner c => trivial
  | unary t operand => trivial

/-! ### Trees that follow the levels -/

/-- A binary operator and its right operand are put behind a tree. -/
def Grammar.push (G : Grammar τ) (tree : Tree τ) (op : τ) (operand : Tree τ) : Tree τ :=
  match tree with
  | .binary t left right =>
    if G.level t < G.level op then .binary t left (G.push right op operand)
    else .binary op tree operand
  | _ => .binary op tree operand

theorem Grammar.push_of_isOperand {tree : Tree τ} (h : tree.IsOperand) (op : τ) (operand : Tree τ) :
  G.push tree op operand = .binary op tree operand
  := by
  cases tree with
  | binary t left right => exact h.elim
  | leaf t => rfl
  | group o inner c => rfl
  | unary t operand => rfl

theorem Grammar.tokens_push (tree : Tree τ) (op : τ) (operand : Tree τ) :
  (G.push tree op operand).tokens = tree.tokens ++ op :: operand.tokens
  := by
  induction tree with
  | binary t left right ihl ihr =>
    unfold Grammar.push
    split_ifs
    · simp only [Tree.tokens, ihr, List.append_assoc, List.cons_append]
    · rfl
  | leaf t => rfl
  | group o inner c ih => rfl
  | unary t operand ih => rfl

theorem Grammar.bindsAt_push {min : ℕ} {tree operand : Tree τ} {op : τ} (h : G.BindsAt min tree)
    (hop : min ≤ G.level op) :
  G.BindsAt min (G.push tree op operand)
  := by
  cases tree with
  | binary t left right =>
    unfold Grammar.push
    split_ifs
    · exact h
    · exact hop
  | leaf t => exact hop
  | group o inner c => exact hop
  | unary t operand => exact hop

theorem Grammar.follows_push {tree operand : Tree τ} {op : τ} (hop : 0 < G.level op)
    (h : G.Follows tree) (hoperand : operand.IsOperand) (hfollows : G.Follows operand) :
  G.Follows (G.push tree op operand)
  := by
  have hlone : tree.IsOperand → G.Follows (G.push tree op operand) := by
    intro hlone
    rw [push_of_isOperand hlone]
    exact ⟨hop, hlone.bindsAt _, hoperand.bindsAt _, h, hfollows⟩
  induction tree with
  | binary t left right ihl ihr =>
    obtain ⟨ht, hleft, hright, hfl, hfr⟩ := h
    unfold Grammar.push
    split_ifs with hlt
    · refine ⟨ht, hleft, bindsAt_push hright hlt, hfl, ihr hfr ?_⟩
      intro hlone
      rw [push_of_isOperand hlone]
      exact ⟨hop, hlone.bindsAt _, hoperand.bindsAt _, hfr, hfollows⟩
    · exact ⟨hop, Nat.le_of_not_lt hlt, hoperand.bindsAt _, ⟨ht, hleft, hright, hfl, hfr⟩, hfollows⟩
  | leaf t => exact hlone trivial
  | group o inner c ih => exact hlone trivial
  | unary t operand ih => exact hlone trivial

/-- Operators and operands in the order of their tokens. -/
structure Grammar.Spine (G : Grammar τ) where
  first : Tree τ
  rest : List (τ × Tree τ)
  isOperand : first.IsOperand
  follows : G.Follows first
  operators : ∀ p ∈ rest, 0 < G.level p.1 ∧ p.2.IsOperand ∧ G.Follows p.2

/-- The tokens of operators and operands. -/
def restTokens (rest : List (τ × Tree τ)) : List τ := rest.flatMap fun p => p.1 :: p.2.tokens

/-- The tree of operators and operands behind a tree. -/
def Grammar.climb (G : Grammar τ) (tree : Tree τ) (rest : List (τ × Tree τ)) : Tree τ :=
  rest.foldl (fun tree p => G.push tree p.1 p.2) tree

theorem Grammar.tokens_climb (tree : Tree τ) (rest : List (τ × Tree τ)) :
  (G.climb tree rest).tokens = tree.tokens ++ restTokens rest
  := by
  induction rest generalizing tree with
  | nil => exact (List.append_nil _).symm
  | cons p rest ih =>
    rw [climb, List.foldl_cons, ← climb, ih, tokens_push]
    simp [restTokens]

theorem Grammar.follows_climb {tree : Tree τ} {rest : List (τ × Tree τ)} (h : G.Follows tree)
    (hrest : ∀ p ∈ rest, 0 < G.level p.1 ∧ p.2.IsOperand ∧ G.Follows p.2) :
  G.Follows (G.climb tree rest)
  := by
  induction rest generalizing tree with
  | nil => exact h
  | cons p rest ih =>
    obtain ⟨hop, hoperand, hfollows⟩ := hrest p (by simp)
    rw [climb, List.foldl_cons, ← climb]
    apply ih (follows_push hop h hoperand hfollows)
    exact fun q hq => hrest q (by simp [hq])

/-- The tokens of an expression are operands with operators between them. -/
theorem Grammar.Complete.spine {ts : List τ} (h : G.Complete ts) :
  ∃ spine : G.Spine, ts = spine.first.tokens ++ restTokens spine.rest
  := by
  induction h with
  | @atom t ht => exact ⟨⟨.leaf t, [], trivial, ht, by simp⟩, rfl⟩
  | @group o c ts ho hc h ih =>
    obtain ⟨spine, rfl⟩ := ih
    have hfollows := follows_climb spine.follows spine.operators
    refine ⟨⟨.group o (G.climb spine.first spine.rest) c, [], trivial, ⟨ho, hc, hfollows⟩, by simp⟩, ?_⟩
    simp [Tree.tokens, tokens_climb, restTokens]
  | @unary t ts ht h ih =>
    obtain ⟨spine, rfl⟩ := ih
    exact ⟨⟨.unary t spine.first, spine.rest, trivial, ⟨ht, spine.isOperand, spine.follows⟩,
      spine.operators⟩, rfl⟩
  | @binary t ts ts' ht h h' ih ih' =>
    obtain ⟨spine, rfl⟩ := ih
    obtain ⟨spine', rfl⟩ := ih'
    refine ⟨⟨spine.first, spine.rest ++ (t, spine'.first) :: spine'.rest, spine.isOperand,
      spine.follows, ?_⟩, ?_⟩
    · intro p hp
      rcases List.mem_append.mp hp with hp | hp
      · exact spine.operators p hp
      · rcases List.mem_cons.mp hp with rfl | hp
        · exact ⟨ht, spine'.isOperand, spine'.follows⟩
        · exact spine'.operators p hp
    · simp [restTokens]

/-- The tokens of an expression are those of a tree that follows the levels. -/
theorem Grammar.Complete.tree {ts : List τ} (h : G.Complete ts) :
  ∃ tree : Tree τ, G.Follows tree ∧ tree.tokens = ts
  := by
  obtain ⟨spine, rfl⟩ := h.spine
  exact ⟨_, follows_climb spine.follows spine.operators, tokens_climb _ _⟩

/-! ### Parsers -/

/-- What may be behind an operand: a binary operator, or the end of the expression. -/
def Grammar.Ends (G : Grammar τ) (rest : List τ) : Prop :=
  ∃ t ts, rest = t :: ts ∧ (0 < G.level t ∨ G.closing t = true ∨ G.final t = true)

/-- No operator that binds as tightly as a level is next. -/
def Grammar.Stops (G : Grammar τ) (min : ℕ) (rest : List τ) : Prop :=
  ∀ t ∈ rest.head?, G.level t = 0 ∨ G.level t < min

theorem Grammar.Stops.mono {min min' : ℕ} {rest : List τ} (h : G.Stops min rest)
    (hle : min ≤ min') :
  G.Stops min' rest
  := fun t ht => (h t ht).imp_right fun hlt => hlt.trans_le hle

/-- What the functions of a parser do from some tokens to others: one reads an operand, one an
expression from a level on, and a loop goes on with a tree from a level on. -/
structure Climber (G : Grammar τ) where
  base : ℕ
  base_le : base ≤ 1
  operand : List τ → Tree τ → List τ → Prop
  expression : ℕ → List τ → Tree τ → List τ → Prop
  loop : ℕ → Tree τ → List τ → Tree τ → List τ → Prop
  leaf : ∀ {t rest}, G.atom t = true → G.Ends rest → operand (t :: rest) (.leaf t) rest
  group : ∀ {o c tree ts rest}, G.opening o = true → G.closing c = true → ts ≠ [] →
    expression base ts tree (c :: rest) → G.Ends rest → operand (o :: ts) (.group o tree c) rest
  unary : ∀ {t tree ts rest}, G.prefixOp t = true → operand ts tree rest → G.Ends rest →
    operand (t :: ts) (.unary t tree) rest
  start : ∀ {min ts first mid tree rest}, operand ts first mid → loop min first mid tree rest →
    expression min ts tree rest
  step : ∀ {min t left right ts mid tree rest}, 0 < G.level t → min ≤ G.level t →
    expression (G.level t + 1) ts right mid → loop min (.binary t left right) mid tree rest →
    loop min left (t :: ts) tree rest
  stop : ∀ {min tree rest}, G.Ends rest → G.Stops min rest → loop min tree rest tree rest

theorem ends_closing {c : τ} (hc : G.closing c = true) (rest : List τ) : G.Ends (c :: rest) :=
  ⟨c, rest, rfl, .inr (.inl hc)⟩

theorem stops_closing {c : τ} (hc : G.closing c = true) (min : ℕ) (rest : List τ) :
  G.Stops min (c :: rest)
  := by
  intro t ht
  obtain rfl : c = t := Option.some.inj ht
  exact .inl (G.level_closing c hc)

theorem Tree.tokens_ne_nil (t : Tree τ) : t.tokens ≠ [] := by
  cases t <;> simp [Tree.tokens]

theorem Climber.bindsAt_base (K : Climber G) {tree : Tree τ} (h : G.Follows tree) :
  G.BindsAt K.base tree
  := by
  cases tree with
  | binary t left right => exact K.base_le.trans h.1
  | leaf t => trivial
  | group o inner c => trivial
  | unary t operand => trivial

theorem Climber.finishes (K : Climber G) {tree : Tree τ} {min : ℕ} {rest : List τ}
    (h : ∃ first mid, K.operand (tree.tokens ++ rest) first mid ∧
      ∀ tree' rest', K.loop min tree rest tree' rest' → K.loop min first mid tree' rest')
    (hends : G.Ends rest) (hstops : G.Stops min rest) :
  K.expression min (tree.tokens ++ rest) tree rest
  := by
  obtain ⟨first, mid, hoperand, hloop⟩ := h
  exact K.start hoperand (hloop _ _ (K.stop hends hstops))

/-- A tree is what its first operand becomes in the loop.  The induction is on the tree: the
loop goes on with the left operand of a binary operator before it reads the right one. -/
theorem Climber.reaches (K : Climber G) {tree : Tree τ} (h : G.Follows tree) :
  (tree.IsOperand → ∀ rest, G.Ends rest → K.operand (tree.tokens ++ rest) tree rest) ∧
    ∀ min rest, G.BindsAt min tree → G.Ends rest →
      (∀ t left right, tree = .binary t left right → G.Stops (G.level t + 1) rest) →
      ∃ first mid, K.operand (tree.tokens ++ rest) first mid ∧
        ∀ tree' rest', K.loop min tree rest tree' rest' → K.loop min first mid tree' rest'
  := by
  have hlone : ∀ {tree : Tree τ},
      (∀ rest, G.Ends rest → K.operand (tree.tokens ++ rest) tree rest) → ∀ min rest, G.Ends rest →
      ∃ first mid, K.operand (tree.tokens ++ rest) first mid ∧
        ∀ tree' rest', K.loop min tree rest tree' rest' → K.loop min first mid tree' rest' :=
    fun hoperand min rest hends => ⟨_, _, hoperand rest hends, fun _ _ hloop => hloop⟩
  induction tree with
  | leaf t =>
    have hoperand : ∀ rest, G.Ends rest → K.operand ((Tree.leaf t).tokens ++ rest) (.leaf t) rest :=
      fun rest hends => K.leaf h hends
    exact ⟨fun _ => hoperand, fun min rest _ hends _ => hlone hoperand min rest hends⟩
  | group o inner c ih =>
    obtain ⟨ho, hc, hinner⟩ := h
    have hoperand : ∀ rest, G.Ends rest →
        K.operand ((Tree.group o inner c).tokens ++ rest) (.group o inner c) rest := by
      intro rest hends
      have hread := (ih hinner).2 K.base (c :: rest) (K.bindsAt_base hinner)
        (ends_closing hc rest)
        fun t left right _ => stops_closing hc _ rest
      have := K.group ho hc (by simp [inner.tokens_ne_nil]) (K.finishes hread (ends_closing hc rest)
        (stops_closing hc _ rest)) hends
      simpa [Tree.tokens] using this
    exact ⟨fun _ => hoperand, fun min rest _ hends _ => hlone hoperand min rest hends⟩
  | unary t operand ih =>
    obtain ⟨ht, hlone', hoperand'⟩ := h
    have hoperand : ∀ rest, G.Ends rest →
        K.operand ((Tree.unary t operand).tokens ++ rest) (.unary t operand) rest :=
      fun rest hends => K.unary ht ((ih hoperand').1 hlone' rest hends) hends
    exact ⟨fun _ => hoperand, fun min rest _ hends _ => hlone hoperand min rest hends⟩
  | binary t left right ihl ihr =>
    obtain ⟨ht, hleft, hright, hfl, hfr⟩ := h
    refine ⟨fun hfalse => hfalse.elim, fun min rest hmin hends hstops => ?_⟩
    have hstop := hstops t left right rfl
    have hop : G.Ends (t :: (right.tokens ++ rest)) := ⟨t, _, rfl, .inl ht⟩
    obtain ⟨first, mid, hoperand, hloop⟩ := (ihl hfl).2 min (t :: (right.tokens ++ rest))
      (hleft.mono hmin) hop (by
        rintro t' left' right' rfl u hu
        obtain rfl : t = u := Option.some.inj hu
        exact .inr (Nat.lt_succ_of_le hleft))
    have hread := (ihr hfr).2 (G.level t + 1) rest hright hends (by
      rintro t' left' right' rfl
      exact hstop.mono (hright.trans (Nat.le_succ _)))
    refine ⟨first, mid, ?_, fun tree' rest' hgoes => ?_⟩
    · simpa [Tree.tokens] using hoperand
    · exact hloop _ _ (K.step ht hmin (K.finishes hread hends hstop) hgoes)

/-- A parser returns the tree that follows the levels for its tokens. -/
theorem Climber.returns (K : Climber G) {tree : Tree τ} (h : G.Follows tree) {rest : List τ}
    (hends : G.Ends rest) (hstops : ∀ min, G.Stops min rest) :
  K.expression K.base (tree.tokens ++ rest) tree rest
  := by
  apply K.finishes ((K.reaches h).2 K.base rest (K.bindsAt_base h) hends _) hends (hstops _)
  exact fun t left right _ => hstops _

/-! ### The tree of tokens -/

/-- What is read: an operand, an expression from a level on, or what is behind a tree. -/
inductive Goal (τ : Type*) where
  | operand
  | expression (min : ℕ)
  | loop (min : ℕ) (left : Tree τ)

/-- The rules of precedence climbing, from some tokens to others. -/
inductive Grammar.Climbs (G : Grammar τ) : Goal τ → List τ → Tree τ → List τ → Prop
  | leaf {t rest} (ht : G.atom t = true) : Climbs G .operand (t :: rest) (.leaf t) rest
  | group {o c tree ts rest} (ho : G.opening o = true) (hc : G.closing c = true)
      (h : Climbs G (.expression 1) ts tree (c :: rest)) :
      Climbs G .operand (o :: ts) (.group o tree c) rest
  | unary {t tree ts rest} (ht : G.prefixOp t = true) (h : Climbs G .operand ts tree rest) :
      Climbs G .operand (t :: ts) (.unary t tree) rest
  | start {min ts first mid tree rest} (h : Climbs G .operand ts first mid)
      (h' : Climbs G (.loop min first) mid tree rest) : Climbs G (.expression min) ts tree rest
  | step {min t left right ts mid tree rest} (ht : 0 < G.level t) (hmin : min ≤ G.level t)
      (h : Climbs G (.expression (G.level t + 1)) ts right mid)
      (h' : Climbs G (.loop min (.binary t left right)) mid tree rest) :
      Climbs G (.loop min left) (t :: ts) tree rest
  | stop {min tree rest} (h : G.Stops min rest) : Climbs G (.loop min tree) rest tree rest

/-- The first token of an operand says what it is. -/
structure Grammar.Apart (G : Grammar τ) : Prop where
  opening_atom : ∀ t, G.opening t = true → G.atom t = false
  prefix_atom : ∀ t, G.prefixOp t = true → G.atom t = false
  prefix_opening : ∀ t, G.prefixOp t = true → G.opening t = false

theorem Grammar.Climbs.unique (hG : G.Apart) {goal : Goal τ} {ts rest rest' : List τ} {tree tree' : Tree τ}
    (h : G.Climbs goal ts tree rest) (h' : G.Climbs goal ts tree' rest') :
  tree = tree' ∧ rest = rest'
  := by
  induction h generalizing tree' rest' with
  | leaf ht =>
    cases h' with
    | leaf _ => exact ⟨rfl, rfl⟩
    | group ho _ _ => exact absurd ht (by rw [hG.opening_atom _ ho]; exact Bool.false_ne_true)
    | unary hp _ => exact absurd ht (by rw [hG.prefix_atom _ hp]; exact Bool.false_ne_true)
  | group ho _ _ ih =>
    cases h' with
    | leaf ht => exact absurd ht (by rw [hG.opening_atom _ ho]; exact Bool.false_ne_true)
    | group _ _ h' =>
      obtain ⟨rfl, hrest⟩ := ih h'
      cases hrest
      exact ⟨rfl, rfl⟩
    | unary hp _ => exact absurd ho (by rw [hG.prefix_opening _ hp]; exact Bool.false_ne_true)
  | unary hp _ ih =>
    cases h' with
    | leaf ht => exact absurd ht (by rw [hG.prefix_atom _ hp]; exact Bool.false_ne_true)
    | group ho _ _ => exact absurd ho (by rw [hG.prefix_opening _ hp]; exact Bool.false_ne_true)
    | unary _ h' =>
      obtain ⟨rfl, rfl⟩ := ih h'
      exact ⟨rfl, rfl⟩
  | start _ _ ih ih' =>
    cases h' with
    | start h' h'' =>
      obtain ⟨rfl, rfl⟩ := ih h'
      exact ih' h''
  | step ht hmin _ _ ih ih' =>
    cases h' with
    | step _ _ h' h'' =>
      obtain ⟨rfl, rfl⟩ := ih h'
      exact ih' h''
    | stop hstop =>
      rcases hstop _ rfl with hzero | hlt <;> omega
  | stop hstop =>
    cases h' with
    | step ht hmin _ _ =>
      rcases hstop _ rfl with hzero | hlt <;> omega
    | stop _ => exact ⟨rfl, rfl⟩

/-- The rules are those of a parser. -/
def Grammar.climber (G : Grammar τ) : Climber G where
  base := 1
  base_le := Nat.le_refl 1
  operand := G.Climbs .operand
  expression min := G.Climbs (.expression min)
  loop min left := G.Climbs (.loop min left)
  leaf ht _ := .leaf ht
  group ho hc _ h _ := .group ho hc h
  unary ht h _ := .unary ht h
  start h h' := .start h h'
  step ht hmin h h' := .step ht hmin h h'
  stop _ h := .stop h

/-- Tokens are those of one tree only. -/
theorem Grammar.Follows.unique (hG : G.Apart) {f : τ} (hf : G.final f = true) {tree tree' : Tree τ}
    (h : G.Follows tree) (h' : G.Follows tree') (htokens : tree.tokens = tree'.tokens) :
  tree = tree'
  := by
  have hends : G.Ends [f] := ⟨f, [], rfl, .inr (.inr hf)⟩
  have hstops (min : ℕ) : G.Stops min [f] := by
    intro t ht
    obtain rfl : f = t := Option.some.inj ht
    exact .inl (G.level_final f hf)
  have hclimbs := G.climber.returns h hends hstops
  rw [htokens] at hclimbs
  exact (hclimbs.unique hG (G.climber.returns h' hends hstops)).1

/-- Each token of a tree has its place in the grammar. -/
theorem Grammar.Follows.mem_tokens {tree : Tree τ} (h : G.Follows tree) {t : τ} (ht : t ∈ tree.tokens) :
  G.atom t = true ∨ G.opening t = true ∨ G.closing t = true ∨ G.prefixOp t = true ∨ 0 < G.level t
  := by
  induction tree with
  | leaf t' =>
    rw [List.mem_singleton.mp ht]
    exact .inl h
  | group o inner c ih =>
    obtain ⟨ho, hc, hinner⟩ := h
    simp only [Tree.tokens, List.cons_append, List.mem_cons, List.mem_append, List.not_mem_nil, or_false] at ht
    rcases ht with rfl | ht | rfl
    · exact .inr (.inl ho)
    · exact ih hinner ht
    · exact .inr (.inr (.inl hc))
  | unary t' operand ih =>
    obtain ⟨ht', _, hoperand⟩ := h
    rcases List.mem_cons.mp ht with rfl | ht
    · exact .inr (.inr (.inr (.inl ht')))
    · exact ih hoperand ht
  | binary t' left right ihl ihr =>
    obtain ⟨hlevel, _, _, hl, hr⟩ := h
    rcases List.mem_append.mp ht with ht | ht
    · exact ihl hl ht
    · rcases List.mem_cons.mp ht with rfl | ht
      · exact .inr (.inr (.inr (.inr hlevel)))
      · exact ihr hr ht

end PrecedenceClimbing
