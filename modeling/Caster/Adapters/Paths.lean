import Caster.Driver.Imports
import Caster.Library.UnixPath

/-!
# The runtime of paths

The functions on paths of generated programs.  A backslash is a separator for them as a slash
is, and a letter with a colon at the start of a path is a drive.
-/

namespace Caster.Sys

open Driver (Text Path)
open UnixPath

/-- A character between the parts of a path. -/
def flxPathIsSep (c : Char) : Bool := c = '/' ∨ c = '\\'

/-- The drive a path starts with. -/
def pathDrive : Path → Text
  | c :: ':' :: _ => if c.isAlpha then [c, ':'] else []
  | _ => []

/-- A path that starts at the top. -/
def flxPathIsAbsolute (path : Path) : Bool := path.head?.any flxPathIsSep || pathDrive path ≠ []

/-- The parts of a path, none of which is empty. -/
def pathParts (path : Path) : List Text := (path.splitOnP flxPathIsSep).filter fun part => part ≠ []

/-- A part behind others, which are left out if they do not move or are undone. -/
def pushPart (parts : List Text) (part : Text) : List Text :=
  if part = dot then parts
  else if part = dotDot ∧ parts ≠ [] ∧ parts.getLast? ≠ some dotDot then parts.dropLast
  else parts ++ [part]

/-- A path without the parts that can be left out. -/
def pathNormalize (path : Path) : Path :=
  let drive := pathDrive path
  let parts := (pathParts (path.drop drive.length)).foldl pushPart []
  let out := drive ++ (if flxPathIsAbsolute path then ['/'] else []) ++ ['/'].intercalate parts
  if out = [] then ['.'] else out

/-- One part behind others, with a slash between them. -/
def joinPart (out part : Path) : Path :=
  if part = [] then out else if out = [] then part else out ++ '/' :: part

/-- Paths, each in the one before. -/
def pathJoin (parts : List Path) : Path := pathNormalize (parts.foldl joinPart [])

/-- A path without the separators at its end, of at least one character. -/
def trimSeps (path : Path) : Path :=
  let kept := (path.reverse.dropWhile flxPathIsSep).reverse
  if kept = [] then path.take 1 else kept

/-- The directory of a path. -/
def pathParent (path : Path) : Path :=
  let kept := trimSeps (pathNormalize path)
  let before := (kept.reverse.dropWhile fun c => !flxPathIsSep c).reverse
  if before = [] then ['.'] else if before.length = 1 then ['/'] else before.dropLast

/-- The last part of a path. -/
def pathName (path : Path) : Text :=
  ((trimSeps (pathNormalize path)).reverse.takeWhile fun c => !flxPathIsSep c).reverse

theorem trimSeps_of_last (pre : Text) {last : Text} (hne : last ≠ [])
    (hlast : ∀ c ∈ last.reverse, flxPathIsSep c = false) :
  trimSeps (pre ++ last) = pre ++ last
  := by
  obtain ⟨c, cs, hcs⟩ := List.exists_cons_of_ne_nil (List.reverse_ne_nil_iff.mpr hne)
  have hc : flxPathIsSep c = false := hlast c (by rw [hcs]; exact List.mem_cons_self)
  have hstay : (pre ++ last).reverse.dropWhile flxPathIsSep = (pre ++ last).reverse := by
    rw [List.reverse_append, hcs, List.cons_append, List.dropWhile_cons_of_neg (by simp [hc])]
  unfold trimSeps
  dsimp only
  rw [hstay, List.reverse_reverse, if_neg (by simp [hne])]

/-- The text before the last part of a path. -/
theorem before_last (pre : Text) {last : Text} (hne : last ≠ [])
    (hlast : ∀ c ∈ last.reverse, flxPathIsSep c = false) (hpre : ∀ c ∈ pre.getLast?, flxPathIsSep c = true) :
  ((trimSeps (pre ++ last)).reverse.dropWhile fun c => !flxPathIsSep c).reverse = pre
  := by
  have hdrop : (last.reverse ++ pre.reverse).dropWhile (fun c => !flxPathIsSep c) = pre.reverse := by
    rw [List.dropWhile_append_of_pos fun c hc => by simp [hlast c hc]]
    cases hrev : pre.reverse with
    | nil => rfl
    | cons c cs =>
      have hc : flxPathIsSep c = true := by
        apply hpre c
        rw [← List.head?_reverse, hrev]
        rfl
      rw [List.dropWhile_cons_of_neg (by simp [hc])]
  rw [trimSeps_of_last pre hne hlast, List.reverse_append, hdrop, List.reverse_reverse]

/-- The last part of a path. -/
theorem after_last (pre : Text) {last : Text} (hne : last ≠ [])
    (hlast : ∀ c ∈ last.reverse, flxPathIsSep c = false) (hpre : ∀ c ∈ pre.getLast?, flxPathIsSep c = true) :
  ((trimSeps (pre ++ last)).reverse.takeWhile fun c => !flxPathIsSep c).reverse = last
  := by
  have htake : (last.reverse ++ pre.reverse).takeWhile (fun c => !flxPathIsSep c) = last.reverse := by
    rw [List.takeWhile_append_of_pos fun c hc => by simp [hlast c hc]]
    cases hrev : pre.reverse with
    | nil => simp
    | cons c cs =>
      have hc : flxPathIsSep c = true := by
        apply hpre c
        rw [← List.head?_reverse, hrev]
        rfl
      rw [List.takeWhile_cons_of_neg (by simp [hc]), List.append_nil]
  rw [trimSeps_of_last pre hne hlast, List.reverse_append, htake, List.reverse_reverse]

/-! ### Paths without backslashes and drives -/

/-- A path whose parts only slashes separate, and that does not start with a drive. -/
structure Slashed (path : Path) : Prop where
  back : '\\' ∉ path
  drive : pathDrive path = []

section

variable {path : Path}

theorem flxPathIsSep_of_mem (hback : '\\' ∉ path) {c : Char} (hc : c ∈ path) :
  flxPathIsSep c = (c == '/')
  := by
  have hback : c ≠ '\\' := fun heq => hback (heq ▸ hc)
  by_cases hslash : c = '/' <;> simp [flxPathIsSep, hback, hslash]

theorem Slashed.flxPathIsAbsolute_eq (h : Slashed path) : flxPathIsAbsolute path = isAbsolute path := by
  obtain ⟨hback, hdrive⟩ := h
  rw [flxPathIsAbsolute, hdrive]
  cases path with
  | nil => rfl
  | cons c path =>
    rw [List.head?_cons, Option.any_some, flxPathIsSep_of_mem hback List.mem_cons_self]
    by_cases hc : c = '/' <;> simp [isAbsolute, hc]

theorem splitOnP_of_back (hback : '\\' ∉ path) : path.splitOnP flxPathIsSep = split path := by
  induction path with
  | nil => rfl
  | cons c path ih =>
    have hrest : '\\' ∉ path := fun h => hback (List.mem_cons_of_mem _ h)
    rw [split, List.splitOn_cons_eq_if_modifyHead, List.splitOnP_cons_eq_if_modifyHead, ih hrest,
      flxPathIsSep_of_mem hback List.mem_cons_self]
    rfl

theorem pushPart_eq_push {part : Text} (hne : part ≠ []) (parts : List Text) :
  pushPart parts part = push parts part
  := by
  unfold pushPart push
  by_cases hdot : part = dot
  · rw [if_pos hdot, if_pos (Or.inr hdot)]
  · rw [if_neg hdot, if_neg (not_or.mpr ⟨hne, hdot⟩)]
    by_cases hup : part = dotDot
    · rw [if_pos hup]
      by_cases hback : parts ≠ [] ∧ parts.getLast? ≠ some dotDot
      · rw [if_pos ⟨hup, hback⟩, if_pos hback]
      · rw [if_neg fun h => hback h.2, if_neg hback]
    · rw [if_neg fun h => hup h.1, if_neg hup]

theorem foldl_pushPart (parts start : List Text) :
  (parts.filter fun part => part ≠ []).foldl pushPart start = parts.foldl push start
  := by
  induction parts generalizing start with
  | nil => rfl
  | cons part parts ih =>
    by_cases hne : part = []
    · subst hne
      rw [List.filter_cons_of_neg (by simp), ih]
      rfl
    · rw [List.filter_cons_of_pos (by simpa using hne), List.foldl_cons, ih, pushPart_eq_push hne]
      rfl

theorem Slashed.pathNormalize_eq (h : Slashed path) : pathNormalize path = simplify path := by
  unfold pathNormalize
  dsimp only
  rw [h.drive, h.flxPathIsAbsolute_eq, List.length_nil, List.drop_zero, pathParts,
    splitOnP_of_back h.back, foldl_pushPart, List.nil_append]
  rfl

/-- The parts of a path have no separators. -/
theorem sep_not_mem_normal (hback : '\\' ∉ path) {part : Text} (hpart : part ∈ normal (split path))
    {c : Char} (hc : c ∈ part) :
  flxPathIsSep c = false
  := by
  obtain ⟨hmem, _⟩ := mem_normal hpart
  have hslash : c ≠ '/' := fun heq => slash_not_mem_split hmem (heq ▸ hc)
  rw [flxPathIsSep_of_mem hback (mem_of_mem_split hmem hc)]
  exact beq_false_of_ne hslash

/-- The parts of a path are rendered, and its last part is at the end. -/
theorem Slashed.rendered (h : Slashed path) {front : List Text} {last : Text}
    (hparts : normal (split path) = front ++ [last]) :
  ∃ pre, pathNormalize path = pre ++ last ∧ last ≠ [] ∧ (∀ c ∈ last.reverse, flxPathIsSep c = false) ∧
    (∀ c ∈ pre.getLast?, flxPathIsSep c = true) ∧
    (if pre = [] then ['.'] else if pre.length = 1 then ['/'] else pre.dropLast) =
      render (isAbsolute path) front
  := by
  have hlast : last ∈ normal (split path) := by
    rw [hparts]
    exact List.mem_append_right _ (List.mem_singleton_self _)
  have hfront : ∀ part ∈ front, part ≠ [] := fun part hpart =>
    (@normal_split_ne path part (by rw [hparts]; exact List.mem_append_left _ hpart)).1
  have hlastNil := (normal_split_ne hlast).1
  have hlastSep : ∀ c ∈ last.reverse, flxPathIsSep c = false := fun c hc =>
    sep_not_mem_normal h.back hlast (List.mem_reverse.mp hc)
  rw [h.pathNormalize_eq, simplify, hparts]
  cases front with
  | nil =>
    refine ⟨_, render_singleton _ hlastNil, hlastNil, hlastSep, ?_, ?_⟩
    · cases isAbsolute path <;> simp [flxPathIsSep]
    · cases isAbsolute path <;> rfl
  | cons first front =>
    have hne := render_ne_nil (isAbsolute path) (first :: front)
    refine ⟨render (isAbsolute path) (first :: front) ++ ['/'], ?_, hlastNil, hlastSep, ?_, ?_⟩
    · rw [render_concat _ (List.cons_ne_nil _ _) hfront]
      simp
    · simp [flxPathIsSep]
    · simp [hne]

/-- The directory of a path whose parts have no separators. -/
theorem Slashed.pathParent_eq (h : Slashed path) : pathParent path = parent path := by
  unfold pathParent
  dsimp only
  rw [parent]
  rcases List.eq_nil_or_concat (normal (split path)) with hnil | ⟨front, last, hparts⟩
  · rw [h.pathNormalize_eq, simplify, hnil]
    cases isAbsolute path <;> rfl
  · rw [List.concat_eq_append] at hparts
    obtain ⟨pre, hpre, hne, hlast, hsep, heq⟩ := h.rendered hparts
    rw [hpre, before_last pre hne hlast hsep, heq, hparts, List.dropLast_concat]

/-- The last of the parts of a path, if they move. -/
theorem Slashed.pathName_eq (h : Slashed path) :
  pathName path = (normal (split path)).getLastD (if isAbsolute path then [] else dot)
  := by
  unfold pathName
  rcases List.eq_nil_or_concat (normal (split path)) with hnil | ⟨front, last, hparts⟩
  · rw [h.pathNormalize_eq, simplify, hnil]
    cases isAbsolute path <;> rfl
  · rw [List.concat_eq_append] at hparts
    obtain ⟨pre, hpre, hne, hlast, hsep, _⟩ := h.rendered hparts
    rw [hpre, after_last pre hne hlast hsep, hparts]
    simp

end

/-! ### Paths without backslashes and colons -/

/-- A character that only separates parts if it is a slash. -/
def IsPlain (c : Char) : Prop := c ≠ '\\' ∧ c ≠ ':'

/-- A path without backslashes and colons. -/
def PlainPath (path : Path) : Prop := ∀ c ∈ path, IsPlain c

theorem PlainPath.append {path path' : Path} (h : PlainPath path) (h' : PlainPath path') :
  PlainPath (path ++ path')
  := fun c hc => (List.mem_append.mp hc).elim (h c) (h' c)

theorem PlainPath.render {path : Path} (h : PlainPath path) (absolute : Bool) {parts : List Text}
    (hparts : ∀ part ∈ parts, part ∈ split path) :
  PlainPath (render absolute parts)
  := by
  intro c hc
  rcases mem_render hc with rfl | rfl | ⟨part, hpart, hc⟩
  · exact ⟨by decide, by decide⟩
  · exact ⟨by decide, by decide⟩
  · exact h c (mem_of_mem_split (hparts part hpart) hc)

theorem PlainPath.simplify {path : Path} (h : PlainPath path) : PlainPath (simplify path) :=
  h.render _ fun _ hpart => (mem_normal hpart).1

theorem PlainPath.parent {path : Path} (h : PlainPath path) : PlainPath (parent path) :=
  h.render _ fun _ hpart => (mem_normal (List.dropLast_subset _ hpart)).1

theorem PlainPath.slashed {path : Path} (h : PlainPath path) : Slashed path := by
  refine ⟨fun hback => (h _ hback).1 rfl, ?_⟩
  unfold pathDrive
  split
  · exact absurd rfl (h ':' (by simp)).2
  · rfl

end Caster.Sys
