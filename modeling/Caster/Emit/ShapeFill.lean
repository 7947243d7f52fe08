import Caster.Ownership.Kept

/-!
# Filled shapes

The expression `[d₁ x … x dₙ].fill(v)`: nested loops, one for each dimension, that add copies of the
value of `v` to arrays.  The code of `v` is executed once for each cell.
-/

namespace Caster

/-! ### The loops -/

/-- The type of the elements of an array. -/
def Ty.arrayElemType : Ty → Ty
  | .ARR elem => elem
  | type => type

/-- Each dimension of a shape adds a layer to the type of the value. -/
def nestedArrayType (elementType : Ty) : ℕ → Ty
  | 0 => elementType
  | dimensions + 1 => nestedArrayType (.ARR elementType) dimensions

/-- An array of the emitted code. -/
structure ArrValue where
  data : Option Loc
  elems : List Val

/-- The value of an array. -/
def ArrValue.toVal (arr : ArrValue) : Val := .arr arr.data arr.elems

/-- The empty array that loops add to. -/
def ArrValue.empty : ArrValue := ⟨none, []⟩

/-- The `add` of an array type: the elements and the value are copied into a new block. -/
def arrAdd (types : TypeTable) (elem : Ty) (src : ArrValue) (value : Val) (n : ℕ) : ArrValue × ℕ :=
  let items := copyElems types elem src.elems (n + 1)
  let last := copyVal types .copy elem value items.2
  (⟨some n, items.1 ++ [last.1]⟩, last.2)

section

variable (types : TypeTable)

/-- The loop of one level: a value is made and added, as often as its dimension says. -/
def fillRounds (elem : Ty) (make : ℕ → Val × ℕ) : ℕ → ArrValue → ℕ → ArrValue × ℕ
  | 0, out, n => (out, n)
  | rounds + 1, out, n =>
    let item := make n
    let added := arrAdd types elem out item.1 item.2
    fillRounds elem make rounds added.1 added.2

/-- The loops that `emit_shape_fill_level` prints for the dimensions from a level on. -/
def emitShapeFillLevel (value : ℕ → Val × ℕ) : Ty → List ℕ → ArrValue → ℕ → ArrValue × ℕ
  | _, [], out, n => (out, n)
  | arrayType, [dim], out, n => fillRounds types arrayType.arrayElemType value dim out n
  | arrayType, dim :: next :: dims, out, n =>
    let childType := arrayType.arrayElemType
    let child n :=
      let filled := emitShapeFillLevel value childType (next :: dims) .empty n
      (filled.1.toVal, filled.2)
    fillRounds types childType child dim out n

/-- The value of `[dims].fill(value)`.  A negative dimension ends the program. -/
def emitShapeFillExpr (dims : List ℤ) (checkedType : Ty) (value : ℕ → Val × ℕ) (n : ℕ) :
    Option (Val × ℕ) :=
  if dims.any (· < 0) then none
  else
    let filled := emitShapeFillLevel types value checkedType (dims.map Int.toNat) .empty n
    some (filled.1.toVal, filled.2)

end

/-! ### Pure values -/

/-- The value of a pure expression: its evaluation at a counter allocates some blocks, and the other
blocks it holds are older. -/
structure PureValue where
  value : Val
  base : ℕ
  allocated : ℕ
  locs_lt : ∀ a ∈ value.locs, a < base + allocated

/-- The block of an evaluation at another counter. -/
def PureValue.block (v : PureValue) (n : ℕ) (a : Loc) : Loc :=
  if a < v.base then a else a - v.base + n

/-- The expression is evaluated: its value is the same in other fresh blocks. -/
def PureValue.eval (v : PureValue) (n : ℕ) : Val × ℕ :=
  (v.value.rename (v.block n), n + v.allocated)

/-- The copy of the value keeps no block that is older than its evaluation. -/
def PureValue.CopiedWhole (types : TypeTable) (type : Ty) (v : PureValue) : Prop :=
  ∀ a ∈ keptVal types .copy type v.value, v.base ≤ a

/-! ### Filled arrays -/

/-- Every cell of a nested array with given dimensions has a property. -/
def AllCells (p : Val → Prop) : List ℕ → Val → Prop
  | [], x => p x
  | dim :: dims, x => ∃ data elems, x = .arr data elems ∧ elems.length = dim ∧
      ∀ e ∈ elems, AllCells p dims e

/-- Different rows or cells of a nested array hold no block in common, and neither do those within
one row. -/
def RowsApart : List ℕ → Val → Prop
  | [], _ => True
  | _ :: dims, x => ∃ data elems, x = .arr data elems ∧
      elems.Pairwise (fun e e' => e.locs.Disjoint e'.locs) ∧ ∀ e ∈ elems, RowsApart dims e

/-- An expression is filled as its dimensions say: each cell has the content of the value, and no
two share storage. -/
def Fills (types : TypeTable) (type : Ty) (dims : List ℕ) (v : PureValue) : Prop :=
  nestedArrayType type dims.length = Ty.ARR^[dims.length] type ∧
    ∃ x n, emitShapeFillExpr types (dims.map Nat.cast) (nestedArrayType type dims.length) v.eval
        v.base = some (x, n) ∧
      AllCells (fun cell => cell.content = v.value.content) dims x ∧ RowsApart dims x

/-! ### Types and values -/

theorem nestedArrayType_eq (type : Ty) (n : ℕ) : nestedArrayType type n = Ty.ARR^[n] type := by
  induction n generalizing type with
  | zero => rfl
  | succ n ih => rw [nestedArrayType, ih, Function.iterate_succ_apply]

section

variable {types : TypeTable} {type : Ty} {v : PureValue}

/-- The older blocks that the copy of a value keeps. -/
def PureValue.older (types : TypeTable) (type : Ty) (v : PureValue) : List Loc :=
  (keptVal types .copy type v.value).filter (· < v.base)

theorem older_eq_nil_iff : v.older types type = [] ↔ v.CopiedWhole types type := by
  unfold PureValue.older PureValue.CopiedWhole
  rw [List.filter_eq_nil_iff]
  simp

theorem lt_of_mem_older {a : Loc} (ha : a ∈ v.older types type) : a < v.base := by
  have hlt := (List.mem_filter.mp ha).2
  exact of_decide_eq_true hlt

theorem mem_kept_eval {n : ℕ} {a : Loc} (ha : a ∈ keptVal types .copy type (v.eval n).1) :
  a ∈ v.older types type ∨ n ≤ a ∧ a < n + v.allocated
  := by
  rw [PureValue.eval, keptVal_rename] at ha
  obtain ⟨b, hb, rfl⟩ := List.mem_map.mp ha
  have hlt := v.locs_lt b (keptVal_subset types .copy type v.value hb)
  unfold PureValue.block
  by_cases hbase : b < v.base
  · rw [if_pos hbase]
    exact Or.inl (List.mem_filter.mpr ⟨hb, decide_eq_true hbase⟩)
  · rw [if_neg hbase]
    have hsub : b - v.base < v.allocated := Nat.sub_lt_left_of_lt_add (Nat.not_lt.mp hbase) hlt
    right
    constructor
    · apply Nat.le_add_left
    · rw [Nat.add_comm n]
      apply Nat.add_lt_add_right hsub

theorem older_subset_kept_eval (n : ℕ) :
  v.older types type ⊆ keptVal types .copy type (v.eval n).1
  := by
  intro a ha
  obtain ⟨hkept, hbase⟩ := List.mem_filter.mp ha
  rw [PureValue.eval, keptVal_rename]
  exact List.mem_map.mpr ⟨a, hkept, if_pos (of_decide_eq_true hbase)⟩

end

/-! ### Copies of rows -/

section

variable (types : TypeTable)

theorem length_copyElems (elem : Ty) (vs : List Val) (n : ℕ) :
  (copyElems types elem vs n).1.length = vs.length
  := by
  induction vs generalizing n with
  | nil => rfl
  | cons v vs ih => simp [copyElems, ih]

/-- The elements and the value are copied one after the other. -/
theorem arrAdd_eq (elem : Ty) (src : ArrValue) (value : Val) (n : ℕ) :
  arrAdd types elem src value n =
    (⟨some n, (copyElems types elem (src.elems ++ [value]) (n + 1)).1⟩,
      (copyElems types elem (src.elems ++ [value]) (n + 1)).2)
  := by
  have happend : ∀ (vs : List Val) (n : ℕ), copyElems types elem (vs ++ [value]) n =
      ((copyElems types elem vs n).1 ++
          [(copyVal types .copy elem value (copyElems types elem vs n).2).1],
        (copyVal types .copy elem value (copyElems types elem vs n).2).2) := by
    intro vs
    induction vs with
    | nil => simp [copyElems]
    | cons v vs ih => simp [copyElems, ih]
  simp [arrAdd, happend]

variable {types}

/-- A copied element is the copy of one at a later counter. -/
theorem mem_copyElems {elem : Ty} {vs : List Val} {n : ℕ} {e : Val}
    (he : e ∈ (copyElems types elem vs n).1) :
  ∃ v ∈ vs, ∃ m, n ≤ m ∧ e = (copyVal types .copy elem v m).1
  := by
  induction vs generalizing n with
  | nil => cases he
  | cons v vs ih =>
    rcases List.mem_cons.mp he with rfl | he
    · exact ⟨v, List.mem_cons_self, n, le_refl n, rfl⟩
    · obtain ⟨w, hw, m, hm, rfl⟩ := ih he
      have hle := copyVal_le types .copy elem v n
      exact ⟨w, List.mem_cons_of_mem v hw, m, le_trans hle hm, rfl⟩

/-- The kept blocks of different elements are different. -/
def KeptApart (types : TypeTable) (elem : Ty) (vs : List Val) : Prop :=
  vs.Pairwise fun v v' => (keptVal types .copy elem v).Disjoint (keptVal types .copy elem v')

theorem mem_keptElems {elem : Ty} {vs : List Val} {a : Loc} :
  a ∈ keptElems types elem vs ↔ ∃ v ∈ vs, a ∈ keptVal types .copy elem v
  := by
  induction vs with
  | nil => simp [keptElems]
  | cons v vs ih => simp [keptElems, ih]

theorem mem_locsList {vs : List Val} {a : Loc} : a ∈ Val.locsList vs ↔ ∃ v ∈ vs, a ∈ v.locs := by
  induction vs with
  | nil => simp [Val.locsList]
  | cons v vs ih => simp [Val.locsList, ih]

/-- Copies of elements whose kept blocks are older and apart hold no block in common. -/
theorem pairwise_copyElems {elem : Ty} {vs : List Val} {n : ℕ} (hvs : KeptApart types elem vs)
    (hlt : ∀ v ∈ vs, ∀ a ∈ keptVal types .copy elem v, a < n) :
  (copyElems types elem vs n).1.Pairwise fun e e' => e.locs.Disjoint e'.locs
  := by
  induction vs generalizing n with
  | nil => apply List.Pairwise.nil
  | cons v vs ih =>
    obtain ⟨hhead, hrest⟩ := List.pairwise_cons.mp hvs
    have hv := copyOf_copyVal types .copy elem v n
    have helems := copyOf_copyElems types elem vs (copyVal types .copy elem v n).2
    have hltv := hlt v List.mem_cons_self
    have hltvs : ∀ a ∈ keptElems types elem vs, a < n := by
      intro a ha
      obtain ⟨w, hw, hmem⟩ := mem_keptElems.mp ha
      exact hlt w (List.mem_cons_of_mem v hw) a hmem
    rw [copyElems, List.pairwise_cons]
    constructor
    · intro e he a ha hae
      have hmem := helems.mem a (mem_locsList.mpr ⟨e, he, hae⟩)
      rcases hv.mem a ha with hkept | hfresh
      · rcases hmem with hkept' | hfresh'
        · obtain ⟨w, hw, hwkept⟩ := mem_keptElems.mp hkept'
          exact hhead w hw hkept hwkept
        · exact absurd (le_trans hv.le hfresh'.1) (Nat.not_le.mpr (hltv a hkept))
      · rcases hmem with hkept' | hfresh'
        · exact absurd hfresh.1 (Nat.not_le.mpr (hltvs a hkept'))
        · exact absurd hfresh'.1 (Nat.not_le.mpr hfresh.2)
    · apply ih hrest
      intro w hw a ha
      exact lt_of_lt_of_le (hlt w (List.mem_cons_of_mem v hw) a ha) hv.le

theorem keptApart_copyElems {elem : Ty} {vs : List Val} (n : ℕ) (hvs : KeptApart types elem vs) :
  KeptApart types elem (copyElems types elem vs n).1
  := by
  induction vs generalizing n with
  | nil => apply List.Pairwise.nil
  | cons v vs ih =>
    obtain ⟨hhead, hrest⟩ := List.pairwise_cons.mp hvs
    apply List.pairwise_cons.mpr
    constructor
    · intro e he
      obtain ⟨w, hw, m, -, rfl⟩ := mem_copyElems he
      rw [(copyOf_copyVal types .copy elem v n).kept, (copyOf_copyVal types .copy elem w m).kept]
      exact hhead w hw
    · exact ih _ hrest

/-- The kept blocks of different rows or cells are different at every level. -/
def AllKeptApart (types : TypeTable) (type : Ty) : List ℕ → Val → Prop
  | [], _ => True
  | _ :: dims, x => ∃ data elems, x = .arr data elems ∧
      KeptApart types (Ty.ARR^[dims.length] type) elems ∧
        ∀ e ∈ elems, AllKeptApart types type dims e

/-- The copy of an array. -/
theorem copyVal_arr (elem : Ty) (data : Option Loc) (elems : List Val) (n : ℕ) :
  ∃ data' m, n ≤ m ∧
    (copyVal types .copy (.ARR elem) (.arr data elems) n).1 =
      .arr data' (copyElems types elem elems m).1
  := by
  cases elems with
  | nil => exact ⟨none, n, le_refl n, rfl⟩
  | cons v vs => exact ⟨some n, n + 1, Nat.le_succ n, rfl⟩

theorem keptVal_arr (elem : Ty) (data : Option Loc) (elems : List Val) :
  keptVal types .copy (.ARR elem) (.arr data elems) = keptElems types elem elems
  := by
  simp [keptVal, emitHeapFieldCopy]

theorem iterate_arr (dims : List ℕ) (dim : ℕ) (type : Ty) :
  Ty.ARR^[(dim :: dims).length] type = .ARR (Ty.ARR^[dims.length] type)
  := by
  rw [List.length_cons, Function.iterate_succ_apply']

variable {type : Ty}

/-- The cells of a copy are copies. -/
theorem allCells_copyVal {p q : Val → Prop}
    (hcopy : ∀ cell n, p cell → q (copyVal types .copy type cell n).1) {dims : List ℕ} {x : Val}
    (hx : AllCells p dims x) (n : ℕ) :
  AllCells q dims (copyVal types .copy (Ty.ARR^[dims.length] type) x n).1
  := by
  induction dims generalizing x n with
  | nil => exact hcopy x n hx
  | cons dim dims ih =>
    obtain ⟨data, elems, rfl, hlen, hcells⟩ := hx
    rw [iterate_arr]
    obtain ⟨data', m, -, heq⟩ := copyVal_arr (Ty.ARR^[dims.length] type) data elems n
    rw [heq]
    refine ⟨data', _, rfl, ?_, ?_⟩
    · rw [length_copyElems, hlen]
    · intro e he
      obtain ⟨w, hw, m, -, rfl⟩ := mem_copyElems he
      exact ih (hcells w hw) m

theorem allKeptApart_copyVal {dims : List ℕ} {x : Val} (hx : AllKeptApart types type dims x)
    (n : ℕ) :
  AllKeptApart types type dims (copyVal types .copy (Ty.ARR^[dims.length] type) x n).1
  := by
  induction dims generalizing x n with
  | nil => trivial
  | cons dim dims ih =>
    obtain ⟨data, elems, rfl, hapart, helems⟩ := hx
    rw [iterate_arr]
    obtain ⟨data', m, -, heq⟩ := copyVal_arr (Ty.ARR^[dims.length] type) data elems n
    rw [heq]
    refine ⟨data', _, rfl, keptApart_copyElems m hapart, ?_⟩
    intro e he
    obtain ⟨w, hw, m, -, rfl⟩ := mem_copyElems he
    exact ih (helems w hw) m

theorem rowsApart_copyVal {dims : List ℕ} {x : Val} {n : ℕ} (hx : AllKeptApart types type dims x)
    (hlt : ∀ a ∈ keptVal types .copy (Ty.ARR^[dims.length] type) x, a < n) :
  RowsApart dims (copyVal types .copy (Ty.ARR^[dims.length] type) x n).1
  := by
  induction dims generalizing x n with
  | nil => trivial
  | cons dim dims ih =>
    obtain ⟨data, elems, rfl, hapart, helems⟩ := hx
    rw [iterate_arr] at hlt ⊢
    rw [keptVal_arr] at hlt
    obtain ⟨data', m, hm, heq⟩ := copyVal_arr (Ty.ARR^[dims.length] type) data elems n
    have hltelems :
        ∀ v ∈ elems, ∀ a ∈ keptVal types .copy (Ty.ARR^[dims.length] type) v, a < m := by
      intro v hv a ha
      exact lt_of_lt_of_le (hlt a (mem_keptElems.mpr ⟨v, hv, ha⟩)) hm
    rw [heq]
    refine ⟨data', _, rfl, pairwise_copyElems hapart hltelems, ?_⟩
    intro e he
    obtain ⟨w, hw, k, hk, rfl⟩ := mem_copyElems he
    apply ih (helems w hw)
    intro a ha
    exact lt_of_lt_of_le (hltelems w hw a ha) hk

end

/-! ### The loops keep the cells apart -/

section

variable (types : TypeTable) (type : Ty) (v : PureValue)

/-- A cell has the content of the value, and its copies keep the older blocks. -/
def IsCell (x : Val) : Prop :=
  x.content = v.value.content ∧ v.older types type ⊆ keptVal types .copy type x

/-- A cell has the content of the value and holds the older blocks. -/
def HoldsOlder (x : Val) : Prop := x.content = v.value.content ∧ v.older types type ⊆ x.locs

/-- The blocks that the copy of a row or cell keeps are older than the expression, or made between
two counters. -/
def KeptBetween (dims : List ℕ) (lo hi : ℕ) (x : Val) : Prop :=
  ∀ a ∈ keptVal types .copy (Ty.ARR^[dims.length] type) x,
    (a ∈ v.older types type ∧ dims.prod ≠ 0) ∨ lo ≤ a ∧ a < hi

/-- What is made in one round of a loop, between two counters. -/
structure Made (dims : List ℕ) (x : Val) (lo hi : ℕ) : Prop where
  le : lo ≤ hi
  cells : AllCells (IsCell types type v) dims x
  kept : KeptBetween types type v dims lo hi x
  apart : v.older types type = [] ∨ dims.prod ≤ 1 → AllKeptApart types type dims x

/-- The elements that a loop of `dim` rounds has made, between two counters. -/
structure Row (dim : ℕ) (dims : List ℕ) (elems : List Val) (lo hi : ℕ) : Prop where
  base : v.base ≤ lo
  le : lo ≤ hi
  cells : ∀ e ∈ elems, AllCells (IsCell types type v) dims e
  kept : ∀ e ∈ elems, KeptBetween types type v dims lo hi e
  apart : v.older types type = [] ∨ dim * dims.prod ≤ 1 →
    KeptApart types (Ty.ARR^[dims.length] type) elems ∧
      ∀ e ∈ elems, AllKeptApart types type dims e

/-- The elements of the array of a loop, all of which have been copied. -/
structure Filled (dim : ℕ) (dims : List ℕ) (elems : List Val) (lo hi : ℕ) : Prop extends
    Row types type v dim dims elems lo hi where
  holds : ∀ e ∈ elems, AllCells (HoldsOlder types type v) dims e
  rows : v.older types type = [] ∨ dim * dims.prod ≤ 1 →
    elems.Pairwise (fun e e' => e.locs.Disjoint e'.locs) ∧ ∀ e ∈ elems, RowsApart dims e

variable {types type v} {dim : ℕ} {dims : List ℕ} {elems : List Val} {x : Val} {lo hi n : ℕ}

theorem IsCell.copy {cell : Val} (h : IsCell types type v cell) (n : ℕ) :
  IsCell types type v (copyVal types .copy type cell n).1
  := by
  have hcopy := copyOf_copyVal types .copy type cell n
  refine ⟨hcopy.content.trans h.1, ?_⟩
  rw [hcopy.kept]
  exact h.2

theorem IsCell.holdsOlder_copy {cell : Val} (h : IsCell types type v cell) (n : ℕ) :
  HoldsOlder types type v (copyVal types .copy type cell n).1
  := by
  have hcopy := copyOf_copyVal types .copy type cell n
  exact ⟨hcopy.content.trans h.1, List.Subset.trans h.2 hcopy.subset⟩

/-- A value that is made is put behind the elements. -/
theorem Row.snoc (h : Row types type v dim dims elems lo hi) (hlen : elems.length < dim)
    (hx : Made types type v dims x hi n) :
  Row types type v dim dims (elems ++ [x]) lo n
  where
  base := h.base
  le := le_trans h.le hx.le
  cells := by
    intro e he
    rcases List.mem_append.mp he with he | he
    · exact h.cells e he
    · rw [List.mem_singleton.mp he]
      exact hx.cells
  kept := by
    intro e he a ha
    rcases List.mem_append.mp he with he | he
    · exact (h.kept e he a ha).imp id fun hmem => ⟨hmem.1, lt_of_lt_of_le hmem.2 hx.le⟩
    · rw [List.mem_singleton.mp he] at ha
      exact (hx.kept a ha).imp id fun hmem => ⟨le_trans h.le hmem.1, hmem.2⟩
  apart := by
    intro hquiet
    obtain ⟨helems, hrows⟩ := h.apart hquiet
    have hitem : v.older types type = [] ∨ dims.prod ≤ 1 := by
      refine hquiet.imp id fun hprod => ?_
      exact le_trans (Nat.le_mul_of_pos_left _ (by omega)) hprod
    constructor
    · apply List.pairwise_append.mpr
      refine ⟨helems, List.pairwise_singleton _ _, ?_⟩
      intro e he x' hx'
      rw [List.mem_singleton.mp hx']
      intro a ha hxa
      rcases h.kept e he a ha with ⟨holder, hprod⟩ | hold
      · -- an older block is in both only if there are two rounds
        rcases hquiet with hnil | hsmall
        · rw [hnil] at holder
          cases holder
        · have hpos := List.length_pos_of_mem he
          have hrounds : 2 * 1 ≤ dim * dims.prod :=
            Nat.mul_le_mul (by omega) (Nat.pos_of_ne_zero hprod)
          omega
      · rcases hx.kept a hxa with ⟨holder, -⟩ | hnew
        · have hlt := lt_of_mem_older holder
          exact absurd (le_trans h.base hold.1) (Nat.not_le.mpr hlt)
        · exact absurd hnew.1 (Nat.not_le.mpr hold.2)
    · intro e he
      rcases List.mem_append.mp he with he | he
      · exact hrows e he
      · rw [List.mem_singleton.mp he]
        exact hx.apart hitem

/-- The elements are copied. -/
theorem Row.copy (h : Row types type v dim dims elems lo hi) (hn : hi ≤ n) :
  Filled types type v dim dims (copyElems types (Ty.ARR^[dims.length] type) elems n).1 lo
    (copyElems types (Ty.ARR^[dims.length] type) elems n).2
  where
  base := h.base
  le := le_trans h.le (le_trans hn (copyElems_le types _ elems n))
  cells := by
    intro e he
    obtain ⟨w, hw, m, -, rfl⟩ := mem_copyElems he
    exact allCells_copyVal (fun cell n hcell => hcell.copy n) (h.cells w hw) m
  kept := by
    intro e he a ha
    obtain ⟨w, hw, m, -, rfl⟩ := mem_copyElems he
    rw [(copyOf_copyVal types .copy _ w m).kept] at ha
    have hle := copyElems_le types (Ty.ARR^[dims.length] type) elems n
    refine (h.kept w hw a ha).imp id fun hmem => ?_
    exact ⟨hmem.1, lt_of_lt_of_le hmem.2 (le_trans hn hle)⟩
  apart := by
    intro hquiet
    obtain ⟨helems, hrows⟩ := h.apart hquiet
    refine ⟨keptApart_copyElems n helems, ?_⟩
    intro e he
    obtain ⟨w, hw, m, -, rfl⟩ := mem_copyElems he
    exact allKeptApart_copyVal (hrows w hw) m
  holds := by
    intro e he
    obtain ⟨w, hw, m, -, rfl⟩ := mem_copyElems he
    exact allCells_copyVal (fun cell n hcell => hcell.holdsOlder_copy n) (h.cells w hw) m
  rows := by
    intro hquiet
    obtain ⟨helems, hrows⟩ := h.apart hquiet
    have hlt : ∀ w ∈ elems, ∀ a ∈ keptVal types .copy (Ty.ARR^[dims.length] type) w, a < n := by
      intro w hw a ha
      rcases h.kept w hw a ha with ⟨holder, -⟩ | hold
      · exact lt_of_lt_of_le (lt_of_mem_older holder) (le_trans h.base (le_trans h.le hn))
      · exact lt_of_lt_of_le hold.2 hn
    refine ⟨pairwise_copyElems helems hlt, ?_⟩
    intro e he
    obtain ⟨w, hw, m, hm, rfl⟩ := mem_copyElems he
    apply rowsApart_copyVal (hrows w hw)
    intro a ha
    exact lt_of_lt_of_le (hlt w hw a ha) hm

/-- The rounds of a loop. -/
theorem filled_fillRounds {make : ℕ → Val × ℕ}
    (hmake : ∀ n, v.base ≤ n → Made types type v dims (make n).1 n (make n).2) (rounds : ℕ)
    (out : ArrValue) (n : ℕ) (hout : Filled types type v dim dims out.elems lo n)
    (hlen : out.elems.length + rounds = dim) :
  Filled types type v dim dims
      (fillRounds types (Ty.ARR^[dims.length] type) make rounds out n).1.elems lo
      (fillRounds types (Ty.ARR^[dims.length] type) make rounds out n).2 ∧
    (fillRounds types (Ty.ARR^[dims.length] type) make rounds out n).1.elems.length = dim
  := by
  induction rounds generalizing out n with
  | zero => exact ⟨hout, hlen⟩
  | succ rounds ih =>
    have hitem := hmake n (le_trans hout.base hout.le)
    have hrow := hout.toRow.snoc (by omega) hitem
    have hcopy := hrow.copy (Nat.le_succ _)
    rw [fillRounds, arrAdd_eq]
    apply ih
    · exact hcopy
    · simp only [length_copyElems, List.length_append, List.length_singleton]
      omega

/-- The array of a loop is made within one round of the loop around it. -/
theorem Filled.made (h : Filled types type v dim dims elems lo hi) (hlen : elems.length = dim)
    (data : Option Loc) :
  Made types type v (dim :: dims) (.arr data elems) lo hi
  where
  le := h.le
  cells := ⟨data, elems, rfl, hlen, h.cells⟩
  kept := by
    intro a ha
    rw [iterate_arr, keptVal_arr, mem_keptElems] at ha
    obtain ⟨e, he, ha⟩ := ha
    refine (h.kept e he a ha).imp (fun hmem => ⟨hmem.1, ?_⟩) id
    have hpos := List.length_pos_of_mem he
    rw [List.prod_cons]
    exact Nat.mul_ne_zero (by omega) hmem.2
  apart := by
    intro hquiet
    rw [List.prod_cons] at hquiet
    obtain ⟨helems, hrows⟩ := h.apart hquiet
    exact ⟨data, elems, rfl, helems, hrows⟩

theorem filled_nil (h : v.base ≤ n) : Filled types type v dim dims [] n n where
  base := h
  le := le_refl n
  cells := by simp
  kept := by simp
  apart _ := ⟨List.Pairwise.nil, by simp⟩
  holds := by simp
  rows _ := ⟨List.Pairwise.nil, by simp⟩

theorem made_eval (n : ℕ) : Made types type v [] (v.eval n).1 n (v.eval n).2 where
  le := Nat.le_add_right n v.allocated
  cells := ⟨Val.content_rename _ v.value, older_subset_kept_eval n⟩
  kept _ ha := (mem_kept_eval ha).imp (fun hmem => ⟨hmem, by simp⟩) id
  apart _ := trivial

/-- The loops of the levels from one on. -/
theorem filled_emitShapeFillLevel (dim : ℕ) (dims : List ℕ) (n : ℕ) (hn : v.base ≤ n) :
  Filled types type v dim dims
      (emitShapeFillLevel types v.eval (Ty.ARR^[(dim :: dims).length] type) (dim :: dims) .empty
        n).1.elems n
      (emitShapeFillLevel types v.eval (Ty.ARR^[(dim :: dims).length] type) (dim :: dims) .empty
        n).2 ∧
    (emitShapeFillLevel types v.eval (Ty.ARR^[(dim :: dims).length] type) (dim :: dims) .empty
        n).1.elems.length = dim
  := by
  induction dims generalizing dim n with
  | nil =>
    rw [iterate_arr, emitShapeFillLevel]
    exact filled_fillRounds (fun n _ => made_eval n) dim .empty n (filled_nil hn) (Nat.zero_add dim)
  | cons next dims ih =>
    rw [iterate_arr, emitShapeFillLevel]
    apply filled_fillRounds _ dim .empty n (filled_nil hn) (Nat.zero_add dim)
    intro n hn
    obtain ⟨hfilled, hlen⟩ := ih next n hn
    exact hfilled.made hlen _

/-! ### Shared blocks -/

/-- A block that each cell holds is held by the whole array, if there are any. -/
theorem mem_locs_of_allCells {a : Loc} (hx : AllCells (fun cell => a ∈ cell.locs) dims x)
    (hprod : dims.prod ≠ 0) :
  a ∈ x.locs
  := by
  induction dims generalizing x with
  | nil => exact hx
  | cons dim dims ih =>
    obtain ⟨data, elems, rfl, hlen, hcells⟩ := hx
    rw [List.prod_cons] at hprod
    cases elems with
    | nil =>
      rw [List.length_nil] at hlen
      exact absurd (by rw [← hlen, Nat.zero_mul]) hprod
    | cons e elems =>
      have he := ih (hcells e List.mem_cons_self) (right_ne_zero_of_mul hprod)
      exact List.mem_append_right _ (List.mem_append_left _ he)

/-- Rows and cells that all hold one block are apart only if there is at most one cell. -/
theorem prod_le_one {a : Loc} (hx : AllCells (fun cell => a ∈ cell.locs) dims x)
    (hrows : RowsApart dims x) :
  dims.prod ≤ 1
  := by
  induction dims generalizing x with
  | nil => exact le_refl 1
  | cons dim dims ih =>
    obtain ⟨data, elems, rfl, hlen, hcells⟩ := hx
    obtain ⟨data', elems', heq, hapart, hinner⟩ := hrows
    cases heq
    rw [List.prod_cons, ← hlen]
    by_cases hprod : dims.prod = 0
    · simp [hprod]
    · match elems, hcells, hapart, hinner with
      | [], _, _, _ => simp
      | [e], hcells, _, hinner =>
        simpa using ih (hcells e List.mem_cons_self) (hinner e List.mem_cons_self)
      | e :: e' :: elems, hcells, hapart, _ =>
        have he := mem_locs_of_allCells (hcells e List.mem_cons_self) hprod
        have hcell' := hcells e' (List.mem_cons_of_mem e List.mem_cons_self)
        have he' := mem_locs_of_allCells hcell' hprod
        exact absurd he' ((List.pairwise_cons.mp hapart).1 e' List.mem_cons_self he)

theorem AllCells.imp {p q : Val → Prop} (h : ∀ cell, p cell → q cell) (hx : AllCells p dims x) :
  AllCells q dims x
  := by
  induction dims generalizing x with
  | nil => exact h x hx
  | cons dim dims ih =>
    obtain ⟨data, elems, rfl, hlen, hcells⟩ := hx
    exact ⟨data, elems, rfl, hlen, fun e he => ih (hcells e he)⟩

end

/-! ### The whole expression -/

section

variable (types : TypeTable) (type : Ty) (v : PureValue)

/-- Dimensions that are not negative end no program. -/
theorem emitShapeFillExpr_natCast (checkedType : Ty) (dims : List ℕ) (n : ℕ) :
  emitShapeFillExpr types (dims.map Nat.cast) checkedType v.eval n =
    some ((emitShapeFillLevel types v.eval checkedType dims .empty n).1.toVal,
      (emitShapeFillLevel types v.eval checkedType dims .empty n).2)
  := by
  have hnonneg : ((dims.map Nat.cast : List ℤ).any (· < 0)) = false := by
    simp only [List.any_map, List.any_eq_false, Function.comp_apply, decide_eq_true_eq, not_lt]
    intro dim _
    apply Int.natCast_nonneg
  have htoNat : (dims.map Nat.cast : List ℤ).map Int.toNat = dims := by
    simp [Function.comp_def]
  rw [emitShapeFillExpr, hnonneg, htoNat]
  rfl

theorem fills_of_quiet (dim : ℕ) (dims : List ℕ)
    (h : v.older types type = [] ∨ (dim :: dims).prod ≤ 1) :
  Fills types type (dim :: dims) v
  := by
  obtain ⟨hfilled, hlen⟩ := @filled_emitShapeFillLevel types type v dim dims v.base (le_refl _)
  obtain ⟨happart, hrows⟩ := hfilled.rows h
  refine ⟨nestedArrayType_eq _ _, _, _, emitShapeFillExpr_natCast types v _ _ _, ?_, ?_⟩
  · rw [nestedArrayType_eq]
    exact ⟨_, _, rfl, hlen, fun e he => (hfilled.holds e he).imp fun _ hcell => hcell.1⟩
  · rw [nestedArrayType_eq]
    exact ⟨_, _, rfl, happart, hrows⟩

theorem quiet_of_fills (dim : ℕ) (dims : List ℕ) (h : Fills types type (dim :: dims) v) :
  v.older types type = [] ∨ (dim :: dims).prod ≤ 1
  := by
  obtain ⟨-, x, n, hfill, -, hrows⟩ := h
  obtain ⟨hfilled, hlen⟩ := @filled_emitShapeFillLevel types type v dim dims v.base (le_refl _)
  rw [emitShapeFillExpr_natCast, nestedArrayType_eq] at hfill
  cases hfill
  cases holder : v.older types type with
  | nil => exact Or.inl rfl
  | cons a older =>
    right
    apply prod_le_one (a := a) _ hrows
    refine ⟨_, _, rfl, hlen, fun e he => (hfilled.holds e he).imp fun cell hcell => ?_⟩
    apply hcell.2
    rw [holder]
    exact List.mem_cons_self

end

/-- A variable with a map of arrays. -/
def mapVariable : PureValue where
  value := .map (some 0) [(⟨some 1, "k"⟩, .arr (some 2) [.int 5])]
  base := 3
  allocated := 0
  locs_lt := by decide

end Caster
