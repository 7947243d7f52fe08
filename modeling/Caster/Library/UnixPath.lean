import Mathlib.Data.List.Basic
import Mathlib.Tactic

/-!
# Paths

A path leads through directories, a part at a time.  Parts that do not move and parts that
are undone by the next one can be left out.
-/

namespace UnixPath

/-- A part of a path. -/
abbrev Part := List Char

/-- The directory a part is in. -/
def dot : Part := ['.']

/-- The directory above. -/
def dotDot : Part := ['.', '.']

/-- The name of a file or a directory. -/
def IsName (part : Part) : Prop := part ≠ [] ∧ part ≠ dot ∧ part ≠ dotDot ∧ '/' ∉ part

instance : DecidablePred IsName := fun _ => inferInstanceAs (Decidable (_ ∧ _))

/-! ### Parts -/

/-- A part behind others, which are left out if they do not move or are undone. -/
def push (parts : List Part) (part : Part) : List Part :=
  if part = [] ∨ part = dot then parts
  else if part = dotDot then
    if parts ≠ [] ∧ parts.getLast? ≠ some dotDot then parts.dropLast else parts ++ [part]
  else parts ++ [part]

/-- The parts of a path without those that can be left out. -/
def normal (parts : List Part) : List Part := parts.foldl push []

theorem normal_append (parts parts' : List Part) :
  normal (parts ++ parts') = parts'.foldl push (normal parts)
  := List.foldl_append

theorem normal_concat (parts : List Part) (part : Part) :
  normal (parts ++ [part]) = push (normal parts) part
  := normal_append parts [part]

theorem push_name {part : Part} (h : IsName part) (parts : List Part) : push parts part = parts ++ [part] := by
  obtain ⟨hnil, hdot, hup, _⟩ := h
  rw [push, if_neg (not_or.mpr ⟨hnil, hdot⟩), if_neg hup]

theorem mem_push {parts : List Part} {part x : Part} (h : x ∈ push parts part) :
  x ∈ parts ∨ x = part ∧ part ≠ [] ∧ part ≠ dot
  := by
  unfold push at h
  split_ifs at h with hstay hup hback
  · exact Or.inl h
  · exact Or.inl (List.dropLast_subset _ h)
  · rcases List.mem_append.mp h with h | h
    · exact Or.inl h
    · rw [not_or] at hstay
      exact Or.inr ⟨List.mem_singleton.mp h, hstay⟩
  · rcases List.mem_append.mp h with h | h
    · exact Or.inl h
    · rw [not_or] at hstay
      exact Or.inr ⟨List.mem_singleton.mp h, hstay⟩

theorem mem_normal {parts : List Part} {x : Part} (h : x ∈ normal parts) :
  x ∈ parts ∧ x ≠ [] ∧ x ≠ dot
  := by
  induction parts using List.reverseRecOn with
  | nil => exact absurd h List.not_mem_nil
  | append_singleton parts part ih =>
    rw [normal_concat] at h
    rcases mem_push h with h | ⟨rfl, hstay⟩
    · obtain ⟨hmem, hstay⟩ := ih h
      exact ⟨List.mem_append_left _ hmem, hstay⟩
    · exact ⟨List.mem_append_right _ (List.mem_singleton_self _), hstay⟩

/-! ### Walks -/

section

variable (isDir : List Part → Bool)

/-- A part leads on from a directory. -/
def step (loc : List Part) (part : Part) : Option (List Part) :=
  if isDir loc then
    some (if part = [] ∨ part = dot then loc
      else if part = dotDot then loc.dropLast
      else loc ++ [part])
  else none

/-- Where parts lead from a directory. -/
def walk (loc : List Part) (parts : List Part) : Option (List Part) := parts.foldlM (step isDir) loc

variable {isDir} {loc found : List Part} {part : Part}

theorem walk_append {parts parts' : List Part} :
  walk isDir loc (parts ++ parts') = some found ↔
    ∃ mid, walk isDir loc parts = some mid ∧ walk isDir mid parts' = some found
  := by
  rw [walk, List.foldlM_append]
  exact Option.bind_eq_some_iff

theorem walk_singleton : walk isDir loc [part] = step isDir loc part := by
  simp [walk, List.foldlM_cons]

theorem walk_concat {parts : List Part} :
  walk isDir loc (parts ++ [part]) = some found ↔
    ∃ mid, walk isDir loc parts = some mid ∧ step isDir mid part = some found
  := by
  simp only [walk_append, walk_singleton]

theorem step_name (h : IsName part) :
  step isDir loc part = some found ↔ isDir loc = true ∧ found = loc ++ [part]
  := by
  obtain ⟨hnil, hdot, hup, _⟩ := h
  unfold step
  rw [if_neg (not_or.mpr ⟨hnil, hdot⟩), if_neg hup]
  split_ifs with hdir
  · simp [hdir, eq_comm]
  · simp [hdir]

/-- The parts that can be left out do not matter. -/
theorem walk_normal {parts : List Part} (h : walk isDir loc parts = some found) :
  walk isDir loc (normal parts) = some found
  := by
  induction parts using List.reverseRecOn generalizing found with
  | nil => exact h
  | append_singleton parts part ih =>
    obtain ⟨mid, hmid, hstep⟩ := walk_concat.mp h
    have hmid := ih hmid
    have hkept : walk isDir loc (normal parts ++ [part]) = some found :=
      walk_concat.mpr ⟨mid, hmid, hstep⟩
    rw [normal_concat]
    unfold push
    split_ifs with hstay hup hback
    · unfold step at hstep
      rw [if_pos hstay] at hstep
      split_ifs at hstep
      cases hstep
      exact hmid
    · -- a name is undone
      obtain ⟨hne, hlast⟩ := hback
      obtain ⟨front, last, hparts⟩ := (List.eq_nil_or_concat (normal parts)).resolve_left hne
      rw [List.concat_eq_append] at hparts
      obtain ⟨_, hlastNil, hlastDot⟩ :=
        @mem_normal parts last (by rw [hparts]; exact List.mem_append_right _ (List.mem_singleton_self _))
      rw [hparts, List.getLast?_concat] at hlast
      rw [hparts] at hmid
      obtain ⟨before, hbefore, hlastStep⟩ := walk_concat.mp hmid
      unfold step at hlastStep
      rw [if_neg (not_or.mpr ⟨hlastNil, hlastDot⟩), if_neg fun heq => hlast (congrArg some heq)] at hlastStep
      split_ifs at hlastStep
      cases hlastStep
      unfold step at hstep
      rw [if_neg hstay, if_pos hup, List.dropLast_concat] at hstep
      split_ifs at hstep
      cases hstep
      rw [hparts, List.dropLast_concat]
      exact hbefore
    · exact hkept
    · exact hkept

/-- Names lead where they say if there are directories. -/
theorem walk_names {names : List Part} (hnames : ∀ name ∈ names, IsName name)
    (hdirs : ∀ front, front <+: names → front ≠ names → isDir front = true) :
  walk isDir [] names = some names
  := by
  induction names using List.reverseRecOn with
  | nil => rfl
  | append_singleton names name ih =>
    apply walk_concat.mpr
    refine ⟨names, ih (fun n hn => hnames n (List.mem_append_left _ hn)) fun front hfront _ => ?_, ?_⟩
    · apply hdirs front (hfront.trans (List.prefix_append _ _))
      intro heq
      have hle := hfront.length_le
      rw [heq, List.length_append, List.length_singleton] at hle
      omega
    · apply (step_name (hnames name (List.mem_append_right _ (List.mem_singleton_self _)))).mpr
      refine ⟨hdirs names (List.prefix_append _ _) fun heq => ?_, rfl⟩
      have hlen := congrArg List.length heq
      simp at hlen

end

/-! ### Texts -/

/-- The parts of a path. -/
def split (path : List Char) : List Part := path.splitOn '/'

/-- A path starts at the top. -/
def isAbsolute (path : List Char) : Bool := decide (path.head? = some '/')

/-- The path with some parts. -/
def render (absolute : Bool) (parts : List Part) : List Char :=
  let path := (if absolute then ['/'] else []) ++ ['/'].intercalate parts
  if path = [] then dot else path

theorem split_join (path path' : List Char) : split (path ++ '/' :: path') = split path ++ split path' :=
  List.splitOn_append_cons_self path path'

theorem slash_not_mem_split {path : List Char} {part : Part} (h : part ∈ split path) : '/' ∉ part := by
  induction path generalizing part with
  | nil =>
    rw [split, List.splitOn, List.splitOnP_nil, List.mem_singleton] at h
    rw [h]
    exact List.not_mem_nil
  | cons c path ih =>
    rw [split, List.splitOn_cons_eq_if_modifyHead] at h
    split_ifs at h with hc
    · rcases List.mem_cons.mp h with rfl | h
      · exact List.not_mem_nil
      · exact ih h
    · obtain ⟨first, rest, hsplit⟩ := List.exists_cons_of_ne_nil (List.splitOn_ne_nil '/' path)
      rw [hsplit, List.modifyHead_cons] at h
      rcases List.mem_cons.mp h with rfl | h
      · intro hslash
        rcases List.mem_cons.mp hslash with heq | hslash
        · exact hc (beq_iff_eq.mpr heq.symm)
        · exact ih (by rw [split, hsplit]; exact List.mem_cons_self) hslash
      · exact ih (by rw [split, hsplit]; exact List.mem_cons_of_mem _ h)

theorem mem_of_mem_split {path : List Char} {part : Part} (h : part ∈ split path) {c : Char} (hc : c ∈ part) :
  c ∈ path
  := by
  induction path generalizing part with
  | nil =>
    rw [split, List.splitOn, List.splitOnP_nil, List.mem_singleton] at h
    rw [h] at hc
    exact hc
  | cons d path ih =>
    rw [split, List.splitOn_cons_eq_if_modifyHead] at h
    split_ifs at h
    · rcases List.mem_cons.mp h with rfl | h
      · exact absurd hc List.not_mem_nil
      · exact List.mem_cons_of_mem _ (ih h hc)
    · obtain ⟨first, rest, hsplit⟩ := List.exists_cons_of_ne_nil (List.splitOn_ne_nil '/' path)
      rw [hsplit, List.modifyHead_cons] at h
      rcases List.mem_cons.mp h with rfl | h
      · rcases List.mem_cons.mp hc with rfl | hc
        · exact List.mem_cons_self
        · exact List.mem_cons_of_mem _ (ih (by rw [split, hsplit]; exact List.mem_cons_self) hc)
      · exact List.mem_cons_of_mem _ (ih (by rw [split, hsplit]; exact List.mem_cons_of_mem _ h) hc)

theorem intercalate_ne_nil {parts : List Part} (hne : parts ≠ [])
    (hparts : ∀ part ∈ parts, part ≠ []) :
  ['/'].intercalate parts ≠ []
  := by
  obtain ⟨part, rest, rfl⟩ := List.exists_cons_of_ne_nil hne
  have hpart := hparts part List.mem_cons_self
  cases rest with
  | nil => simpa using hpart
  | cons part' rest => simp [List.intercalate_cons_cons, hpart]

theorem render_ne_nil (absolute : Bool) (parts : List Part) : render absolute parts ≠ [] := by
  unfold render
  dsimp only
  generalize (if absolute = true then ['/'] else []) ++ ['/'].intercalate parts = path
  split_ifs with h
  · exact List.cons_ne_nil _ _
  · exact h

theorem intercalate_concat {front : List Part} (hne : front ≠ []) (last : Part) :
  ['/'].intercalate (front ++ [last]) = ['/'].intercalate front ++ '/' :: last
  := by
  induction front with
  | nil => exact absurd rfl hne
  | cons part front ih =>
    cases front with
    | nil => simp [List.intercalate_cons_cons]
    | cons part' front =>
      have hrest := ih (List.cons_ne_nil _ _)
      simp only [List.cons_append, List.intercalate_cons_cons, List.append_assoc] at hrest ⊢
      rw [hrest]

theorem mem_intercalate {parts : List Part} {c : Char} (h : c ∈ ['/'].intercalate parts) :
  c = '/' ∨ ∃ part ∈ parts, c ∈ part
  := by
  induction parts with
  | nil => exact absurd h List.not_mem_nil
  | cons part parts ih =>
    cases parts with
    | nil =>
      rw [List.intercalate_singleton] at h
      exact Or.inr ⟨part, List.mem_cons_self, h⟩
    | cons part' parts =>
      rw [List.intercalate_cons_cons, List.mem_append, List.mem_append, List.mem_singleton] at h
      rcases h with (h | h) | h
      · exact Or.inr ⟨part, List.mem_cons_self, h⟩
      · exact Or.inl h
      · rcases ih h with h | ⟨part'', hpart, hc⟩
        · exact Or.inl h
        · exact Or.inr ⟨part'', List.mem_cons_of_mem _ hpart, hc⟩

theorem mem_render {absolute : Bool} {parts : List Part} {c : Char} (h : c ∈ render absolute parts) :
  c = '/' ∨ c = '.' ∨ ∃ part ∈ parts, c ∈ part
  := by
  unfold render at h
  dsimp only at h
  split_ifs at h
  · exact Or.inr (Or.inl (List.mem_singleton.mp h))
  · rcases List.mem_append.mp h with h | h
    · exact Or.inl (List.mem_singleton.mp h)
    · exact (mem_intercalate h).imp id Or.inr
  · exact Or.inr (Or.inl (List.mem_singleton.mp h))
  · rcases List.mem_append.mp h with h | h
    · exact absurd h List.not_mem_nil
    · exact (mem_intercalate h).imp id Or.inr

theorem render_singleton (absolute : Bool) {last : Part} (hlast : last ≠ []) :
  render absolute [last] = (if absolute then ['/'] else []) ++ last
  := by
  rw [render, List.intercalate_singleton, if_neg fun h => hlast (List.append_eq_nil_iff.mp h).2]

theorem render_concat (absolute : Bool) {front : List Part} (hne : front ≠ [])
    (hfront : ∀ part ∈ front, part ≠ []) (last : Part) :
  render absolute (front ++ [last]) = render absolute front ++ '/' :: last
  := by
  have hjoin := intercalate_ne_nil hne hfront
  rw [render, render, intercalate_concat hne, if_neg fun h => hjoin (List.append_eq_nil_iff.mp h).2,
    if_neg (by simp), List.append_assoc]

section

variable {parts : List Part} (hparts : ∀ part ∈ parts, part ≠ [] ∧ '/' ∉ part)

include hparts

theorem split_render_relative (hne : parts ≠ []) : split (render false parts) = parts := by
  have hjoin : ['/'].intercalate parts ≠ [] :=
    intercalate_ne_nil hne fun part h => (hparts part h).1
  rw [render, if_neg (by simpa using hjoin)]
  exact List.splitOn_intercalate '/' (fun part h => (hparts part h).2) hne

theorem split_render_absolute (hne : parts ≠ []) : split (render true parts) = [] :: parts := by
  rw [render, if_neg (by simp)]
  show split ([] ++ '/' :: ['/'].intercalate parts) = _
  rw [split_join]
  have hsplit := List.splitOn_intercalate '/' (fun part h => (hparts part h).2) hne
  rw [show split (['/'].intercalate parts) = parts from hsplit]
  rfl

theorem isAbsolute_render (absolute : Bool) : isAbsolute (render absolute parts) = absolute := by
  cases absolute with
  | true => simp [render, isAbsolute]
  | false =>
    cases hcase : parts with
    | nil => rfl
    | cons part rest =>
      have hne := hparts part (by rw [hcase]; exact List.mem_cons_self)
      obtain ⟨c, cs, rfl⟩ := List.exists_cons_of_ne_nil hne.1
      have hc : c ≠ '/' := fun heq => hne.2 (heq ▸ List.mem_cons_self)
      cases rest <;> simp [render, isAbsolute, List.intercalate_cons_cons, hc]

end

/-! ### Places -/

section

variable (isDir : List Part → Bool) (cwd : List Part)

/-- Where a path starts. -/
def start (absolute : Bool) : List Part := if absolute then [] else cwd

/-- Where a path leads. -/
def locate (path : List Char) : Option (List Part) :=
  if path = [] then none else walk isDir (start cwd (isAbsolute path)) (split path)

/-- A path without the parts that can be left out. -/
def simplify (path : List Char) : List Char := render (isAbsolute path) (normal (split path))

/-- The path of the directory a path leads into. -/
def parent (path : List Char) : List Char := render (isAbsolute path) (normal (split path)).dropLast

variable {isDir cwd} {path : List Char} {found : List Part}

theorem normal_split_ne {part : Part} (h : part ∈ normal (split path)) : part ≠ [] ∧ '/' ∉ part := by
  obtain ⟨hmem, hnil, _⟩ := mem_normal h
  exact ⟨hnil, slash_not_mem_split hmem⟩

variable (hroot : isDir [] = true) (hcwd : isDir cwd = true)

include hroot hcwd

theorem isDir_start (absolute : Bool) : isDir (start cwd absolute) = true := by
  cases absolute
  · exact hcwd
  · exact hroot

/-- A rendered path leads where its parts do. -/
theorem locate_render {parts : List Part} (hparts : ∀ part ∈ parts, part ≠ [] ∧ '/' ∉ part)
    (absolute : Bool) :
  locate isDir cwd (render absolute parts) = walk isDir (start cwd absolute) parts
  := by
  have hdir := isDir_start hroot hcwd absolute
  have hstay : step isDir (start cwd absolute) [] = some (start cwd absolute) := by
    rw [step, if_pos hdir, if_pos (Or.inl rfl)]
  have hdot : step isDir (start cwd absolute) dot = some (start cwd absolute) := by
    rw [step, if_pos hdir, if_pos (Or.inr rfl)]
  rw [locate, if_neg (render_ne_nil absolute parts), isAbsolute_render hparts]
  rcases List.eq_nil_or_concat parts with rfl | ⟨front, last, hconcat⟩
  · cases absolute with
    | false => exact (walk_singleton).trans hdot
    | true =>
      show walk isDir _ ([[]] ++ [[]]) = some _
      exact walk_append.mpr ⟨_, walk_singleton.trans hstay, walk_singleton.trans hstay⟩
  · have hne : parts ≠ [] := by simp [hconcat]
    cases absolute with
    | false => rw [split_render_relative hparts hne]
    | true =>
      rw [split_render_absolute hparts hne, walk, List.foldlM_cons, hstay]
      rfl

theorem locate_simplify (h : locate isDir cwd path = some found) :
  locate isDir cwd (simplify path) = some found
  := by
  unfold locate at h
  split_ifs at h
  rw [simplify, locate_render hroot hcwd fun part hpart => normal_split_ne hpart]
  exact walk_normal h

/-- The directory of a file. -/
theorem locate_parent (hup : ∀ loc, isDir loc = true → isDir loc.dropLast = true)
    (h : locate isDir cwd path = some found) (hfile : isDir found = false) :
  locate isDir cwd (parent path) = some found.dropLast
  := by
  unfold locate at h
  split_ifs at h
  have hwalk := walk_normal h
  have hsub : ∀ part ∈ (normal (split path)).dropLast, part ≠ [] ∧ '/' ∉ part :=
    fun part hpart => normal_split_ne (List.dropLast_subset _ hpart)
  rw [parent, locate_render hroot hcwd hsub]
  rcases List.eq_nil_or_concat (normal (split path)) with hnil | ⟨front, last, hparts⟩
  · -- a path that stays leads to a directory
    rw [hnil] at hwalk
    cases hwalk
    rw [isDir_start hroot hcwd] at hfile
    cases hfile
  · rw [List.concat_eq_append] at hparts
    obtain ⟨_, hlastNil, hlastDot⟩ :=
      @mem_normal (split path) last (by rw [hparts]; exact List.mem_append_right _ (List.mem_singleton_self _))
    rw [hparts] at hwalk
    obtain ⟨dir, hdir, hstep⟩ := walk_concat.mp hwalk
    unfold step at hstep
    rw [if_neg (not_or.mpr ⟨hlastNil, hlastDot⟩)] at hstep
    rw [hparts, List.dropLast_concat, hdir]
    split_ifs at hstep with hisDir hback
    · -- a step up leads to a directory
      cases hstep
      rw [hup dir hisDir] at hfile
      cases hfile
    · cases hstep
      rw [List.dropLast_concat]

omit hroot hcwd

/-- A path names something in a directory. -/
def Points (isDir : List Part → Bool) (cwd : List Part) (path : List Char) (dir : List Part) (name : Part) :
    Prop :=
  ∃ front, split path = front ++ [name] ∧ walk isDir (start cwd (isAbsolute path)) front = some dir

theorem Points.join {base spec : List Char} {dir : List Part} {front : List Part} {name : Part}
    (hbase : locate isDir cwd base = some found) (hspec : split spec = front ++ [name])
    (hfront : walk isDir found front = some dir) :
  Points isDir cwd (base ++ '/' :: spec) dir name
  := by
  unfold locate at hbase
  split_ifs at hbase with hne
  have habs : isAbsolute (base ++ '/' :: spec) = isAbsolute base := by
    obtain ⟨c, cs, rfl⟩ := List.exists_cons_of_ne_nil hne
    rfl
  refine ⟨split base ++ front, ?_, ?_⟩
  · rw [split_join, hspec, List.append_assoc]
  · rw [habs]
    exact walk_append.mpr ⟨found, hbase, hfront⟩

include hroot hcwd

/-- The directory a path names something in does not change. -/
theorem Points.simplify {dir : List Part} {name : Part} (hname : IsName name)
    (h : Points isDir cwd path dir name) :
  Points isDir cwd (simplify path) dir name
  := by
  obtain ⟨front, hsplit, hwalk⟩ := h
  have hnormal : normal (split path) = normal front ++ [name] := by
    rw [hsplit, normal_concat, push_name hname]
  have hparts : ∀ part ∈ normal front ++ [name], part ≠ [] ∧ '/' ∉ part := by
    intro part hpart
    rw [← hnormal] at hpart
    exact normal_split_ne hpart
  have hne : normal front ++ [name] ≠ [] := by simp
  have hnormalWalk := walk_normal hwalk
  unfold Points
  rw [UnixPath.simplify, hnormal, isAbsolute_render hparts]
  cases habs : isAbsolute path with
  | false =>
    rw [split_render_relative hparts hne]
    rw [habs] at hnormalWalk
    exact ⟨normal front, rfl, hnormalWalk⟩
  | true =>
    rw [split_render_absolute hparts hne]
    rw [habs] at hnormalWalk
    refine ⟨[] :: normal front, rfl, ?_⟩
    have hstay : step isDir (start cwd true) [] = some (start cwd true) := by
      rw [step, if_pos (isDir_start hroot hcwd true), if_pos (Or.inl rfl)]
    rw [walk, List.foldlM_cons, hstay]
    exact hnormalWalk

end

end UnixPath
