import Caster.Library.Marks
import Caster.Web.Dispatch
import Caster.Web.UrlDecode

/-!
# Queries

What the query of a path stands for, and the paths whose query `parseQuery` reads that way.  The
code splits a piece at every equals sign and takes the first two parts, so that a value ends at its
own first one.
-/

namespace Caster

namespace Web

/-! ### The query of a path -/

/-- What is behind the first byte of a kind. -/
def behind (b : UInt8) (text : Bytes) : Bytes := (text.dropWhile fun ch => ch ≠ b).tail

/-- The pieces of a query that are not empty. -/
def queryPieces (path : Bytes) : List Bytes :=
  ((behind 63 path).splitOn 38).filter fun piece => piece ≠ []

/-- The key of a piece is before its first equals sign. -/
def pieceKey (piece : Bytes) : Bytes := urlDecode (piece.takeWhile fun ch => ch ≠ 61)

/-- The value of a piece is all that is behind its first equals sign. -/
def pieceValue (piece : Bytes) : Bytes := urlDecode (behind 61 piece)

/-- A map is the query of a path: each key has the value of its last piece. -/
def IsQueryOf (path : Bytes) (query : StrMap) : Prop := ∀ key,
  Assoc.get query key =
    Assoc.last ((queryPieces path).map fun piece => (pieceKey piece, pieceValue piece)) key

/-! ### Searching a byte -/

section Bytes

variable {b : UInt8} {text before rest : Bytes}

theorem behind_append (h : b ∉ before) : behind b (before ++ b :: rest) = rest := by
  rw [behind, Marks.dropWhile_append_mark h, List.tail_cons]

theorem behind_of_not_mem (h : b ∉ text) : behind b text = [] := by
  rw [behind, Marks.dropWhile_of_not_mem h, List.tail_nil]

/-- The first part of a text is what is before the first separator. -/
theorem splitOn_head (b : UInt8) (text : Bytes) :
  ∃ rest, text.splitOn b = (text.takeWhile fun ch => ch ≠ b) :: rest
  := by
  by_cases hmem : b ∈ text
  · obtain ⟨before, rest, rfl, hbefore⟩ := List.eq_append_cons_of_mem hmem
    rw [List.splitOn_append_cons_self_of_not_mem hbefore, Marks.takeWhile_append_mark hbefore]
    exact ⟨rest.splitOn b, rfl⟩
  · rw [List.splitOn_eq_singleton hmem, Marks.takeWhile_of_not_mem hmem]
    exact ⟨[], rfl⟩

end Bytes

theorem filter_zipIdx_gt (text : Bytes) (n k : ℕ) :
  ((text.zipIdx k).filter fun e => decide (n < e.2)).map Prod.fst = text.drop (n + 1 - k)
  := by
  induction text generalizing k with
  | nil => simp
  | cons ch text ih =>
    rw [List.zipIdx_cons]
    by_cases hk : n < k
    · have hsub : n + 1 - k = 0 := by omega
      have hsub' : n + 1 - (k + 1) = 0 := by omega
      simp [hk, ih, hsub, hsub']
    · have hsub : n + 1 - k = n + 1 - (k + 1) + 1 := by omega
      rw [List.filter_cons_of_neg (by simpa using hk), ih, hsub, List.drop_succ_cons]

theorem queryText_eq (path : Bytes) : queryText path = behind 63 path := by
  unfold queryText strFind
  simp only [List.length_singleton, one_ne_zero, if_false, strFindFrom_byte]
  by_cases hmem : (63 : UInt8) ∈ path
  · obtain ⟨before, rest, rfl, hbefore⟩ := List.eq_append_cons_of_mem hmem
    have hpos : ¬ ((0 + before.length : ℕ) : ℤ) < 0 := by omega
    rw [Marks.takeWhile_append_mark hbefore, behind_append hbefore, if_pos hmem, if_neg hpos,
      Nat.zero_add]
    simp only [Nat.cast_lt]
    rw [strFilt, filter_zipIdx_gt]
    simp
  · rw [if_neg hmem, if_pos (by decide), behind_of_not_mem hmem]

/-! ### The pieces -/

/-- What the code takes for the value of a piece is between its first two equals signs. -/
def secondPart (piece : Bytes) : Bytes :=
  urlDecode ((behind 61 piece).takeWhile fun ch => ch ≠ 61)

/-- The loop sets the keys of the pieces one after the other. -/
theorem parsePairs_eq (pairs : List Bytes) (query : StrMap) :
  parsePairs pairs query = some (Assoc.setAll query
    ((pairs.filter fun piece => piece ≠ []).map fun piece => (pieceKey piece, secondPart piece)))
  := by
  induction pairs generalizing query with
  | nil => rfl
  | cons e pairs ih =>
    rw [parsePairs, strSplit_byte]
    by_cases hempty : e = []
    · simp [hempty, ih]
    · rw [List.filter_cons_of_pos (by simpa using hempty), List.map_cons, Assoc.setAll,
        List.foldl_cons]
      by_cases hmem : (61 : UInt8) ∈ e
      · obtain ⟨name, value, rfl, hname⟩ := List.eq_append_cons_of_mem hmem
        obtain ⟨rest, hrest⟩ := splitOn_head 61 value
        rw [List.splitOn_append_cons_self_of_not_mem hname, hrest]
        have hkey : pieceKey (name ++ 61 :: value) = urlDecode name := by
          rw [pieceKey, Marks.takeWhile_append_mark hname]
        have hsecond : secondPart (name ++ 61 :: value) =
            urlDecode (value.takeWhile fun ch => ch ≠ 61) := by
          rw [secondPart, behind_append hname]
        simp [ih, hkey, hsecond, Assoc.setAll]
      · rw [List.splitOn_eq_singleton hmem]
        have hkey : pieceKey e = urlDecode e := by rw [pieceKey, Marks.takeWhile_of_not_mem hmem]
        have hsecond : secondPart e = [] := by
          rw [secondPart, behind_of_not_mem hmem]
          rfl
        simp [hempty, ih, hkey, hsecond, Assoc.setAll]

theorem parseQuery_eq (path : Bytes) :
  parseQuery path = some (Assoc.setAll []
    ((queryPieces path).map fun piece => (pieceKey piece, secondPart piece)))
  := by
  unfold parseQuery queryPieces
  rw [queryText_eq]
  by_cases hraw : behind 63 path = []
  · simp [hraw, Assoc.setAll]
  · simp only [if_neg hraw, strSplit_byte, parsePairs_eq]

/-! ### Values with an equals sign -/

/-- Bytes that stand for themselves are no part of a percent sequence. -/
theorem Decodes.append_equals {v t w u : Bytes} (hv : Decodes v t) (hw : Decodes w u) :
  Decodes (v ++ 61 :: w) (t ++ 61 :: u)
  := by
  induction hv with
  | nil => apply Decodes.itself (by decide) (by decide) hw
  | itself hpercent hplus _ ih => apply Decodes.itself hpercent hplus ih
  | percent hx hy _ ih => apply Decodes.percent hx hy ih
  | plus _ ih => apply Decodes.plus ih
  | @malformed s t hstart _ ih =>
    apply Decodes.malformed _ ih
    rintro ⟨n, m, x, y, rest, heq, hx, hy⟩
    have hnothex : ∀ n, ¬ IsHexOf n 61 := by
      intro n
      unfold IsHexOf
      grind
    rcases s with - | ⟨x', - | ⟨y', s⟩⟩
    · cases heq
      exact hnothex n hx
    · cases heq
      exact hnothex m hy
    · cases heq
      apply hstart
      exact ⟨n, m, x, y, s, rfl, hx, hy⟩

theorem urlDecode_append_equals (v w : Bytes) :
  urlDecode (v ++ 61 :: w) = urlDecode v ++ 61 :: urlDecode w
  := by
  have hv := (decodes_iff v _).mpr rfl
  have hw := (decodes_iff w _).mpr rfl
  apply (hv.append_equals hw).urlDecode_eq

/-- A value is read whole when the piece has at most one equals sign. -/
theorem secondPart_eq_iff (piece : Bytes) :
  secondPart piece = pieceValue piece ↔ piece.count 61 ≤ 1
  := by
  unfold secondPart pieceValue
  by_cases hmem : (61 : UInt8) ∈ piece
  · obtain ⟨name, value, rfl, hname⟩ := List.eq_append_cons_of_mem hmem
    rw [behind_append hname, List.count_append, List.count_eq_zero.mpr hname,
      List.count_cons_self]
    by_cases hvalue : (61 : UInt8) ∈ value
    · have hcount := List.count_pos_iff.mpr hvalue
      obtain ⟨first, rest, rfl, hfirst⟩ := List.eq_append_cons_of_mem hvalue
      rw [Marks.takeWhile_append_mark hfirst, urlDecode_append_equals]
      constructor
      · intro h
        have hlength := congrArg List.length h
        simp at hlength
      · omega
    · rw [Marks.takeWhile_of_not_mem hvalue, List.count_eq_zero.mpr hvalue]
      simp
  · simp [behind_of_not_mem hmem, List.count_eq_zero.mpr hmem]

/-- The query of a path is read right when, of the pieces with one key, the last has at most one
equals sign. -/
theorem parseQuery_isQueryOf_iff (path : Bytes) :
  (∃ query, parseQuery path = some query ∧ IsQueryOf path query) ↔
    ∀ front piece back, queryPieces path = front ++ piece :: back →
      (∀ later ∈ back, pieceKey later ≠ pieceKey piece) → piece.count 61 ≤ 1
  := by
  have hget : ∀ (l : StrMap) key, Assoc.get (Assoc.setAll [] l) key = Assoc.last l key := by
    intro l key
    rw [Assoc.get_setAll, Assoc.get, Option.or_none]
  simp only [parseQuery_eq, Option.some.injEq, exists_eq_left', IsQueryOf, hget,
    Assoc.last_map_eq_iff, secondPart_eq_iff]

/-- The value of `a` in `/p?a=b=c` is not `b=c`. -/
theorem not_parseQuery_isQueryOf :
  ¬ ∃ query, parseQuery (strLit "/p?a=b=c") = some query ∧ IsQueryOf (strLit "/p?a=b=c") query
  := by
  rintro ⟨query, hquery, h⟩
  have hpieces : queryPieces (strLit "/p?a=b=c") = [strLit "a=b=c"] := by decide
  have hvalue := h (pieceKey (strLit "a=b=c"))
  rw [parseQuery_eq, hpieces] at hquery
  cases hquery
  rw [hpieces] at hvalue
  simp only [List.map_cons, List.map_nil, Assoc.get_setAll, Assoc.last, Assoc.get, if_true,
    Option.none_or, Option.or_none, Option.some.injEq, secondPart_eq_iff] at hvalue
  revert hvalue
  decide

end Web

end Caster
