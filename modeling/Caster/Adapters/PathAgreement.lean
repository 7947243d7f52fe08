import Caster.Adapters.OnePass

/-!
# The runtimes on paths

The paths whose directory and name, and the lists of paths whose join, are the same text in both
runtimes.  The self-hosted one takes texts apart and puts them together, and leaves nothing out.
-/

namespace Caster.Sys

open Driver (Text Path)
open UnixPath

/-! ### Directories and names -/

theorem lastSlashFrom_of_not_mem (i last : ℤ) {path : Path} (h : '/' ∉ path) :
  SelfHosted.lastSlashFrom i last path = last
  := by
  induction path generalizing i with
  | nil => rfl
  | cons c path ih =>
    have hc : c ≠ '/' := fun heq => h (heq ▸ List.mem_cons_self)
    rw [SelfHosted.lastSlashFrom, if_neg hc, ih _ fun hmem => h (List.mem_cons_of_mem _ hmem)]

theorem lastSlashFrom_append (i last : ℤ) (path : Path) {part : Part} (h : '/' ∉ part) :
  SelfHosted.lastSlashFrom i last (path ++ '/' :: part) = i + path.length
  := by
  induction path generalizing i last with
  | nil =>
    rw [List.nil_append, SelfHosted.lastSlashFrom, if_pos rfl, lastSlashFrom_of_not_mem _ _ h]
    simp
  | cons c path ih =>
    rw [List.cons_append, SelfHosted.lastSlashFrom, ih, List.length_cons]
    push_cast
    ring

/-- A path is a part, or a part behind a path and a slash. -/
theorem path_of_split {path : Path} {front : List Part} {last : Part} (h : split path = front ++ [last]) :
  '/' ∉ last ∧
    (front = [] ∧ path = last ∨ ∃ dir, split dir = front ∧ path = dir ++ '/' :: last)
  := by
  have hlast : last ∈ split path := by
    rw [h]
    exact List.mem_append_right _ (List.mem_singleton_self _)
  refine ⟨slash_not_mem_split hlast, ?_⟩
  have hpath := join_split path
  rw [h] at hpath
  rcases Decidable.eq_or_ne front [] with rfl | hne
  · left
    rw [List.nil_append, List.intercalate_singleton] at hpath
    exact ⟨rfl, hpath.symm⟩
  · right
    rw [intercalate_concat hne] at hpath
    refine ⟨['/'].intercalate front, ?_, hpath.symm⟩
    apply List.splitOn_intercalate '/' _ hne
    intro part hpart
    exact slash_not_mem_split (by rw [h]; exact List.mem_append_left _ hpart)

/-- The name of a path is its last part. -/
theorem selfHosted_pathName {path : Path} {front : List Part} {last : Part} (h : split path = front ++ [last]) :
  SelfHosted.pathName path = last
  := by
  obtain ⟨hlast, ⟨_, rfl⟩ | ⟨dir, _, rfl⟩⟩ := path_of_split h
  · rw [SelfHosted.pathName, SelfHosted.lastSlash, lastSlashFrom_of_not_mem _ _ hlast]
    rfl
  · rw [SelfHosted.pathName, SelfHosted.lastSlash, lastSlashFrom_append _ _ _ hlast]
    have hdrop : (0 + (dir.length : ℤ) + 1).toNat = dir.length + 1 := by omega
    rw [hdrop, show dir ++ '/' :: last = (dir ++ ['/']) ++ last by simp]
    exact List.drop_left' (by simp)

/-- The directory of a path is the text before its last slash. -/
theorem selfHosted_pathParent {dir : Path} {last : Part} (h : '/' ∉ last) :
  SelfHosted.pathParent (dir ++ '/' :: last) = if dir = [] then dot else dir
  := by
  rw [SelfHosted.pathParent, SelfHosted.lastSlash, lastSlashFrom_append _ _ _ h]
  rcases Decidable.eq_or_ne dir [] with rfl | hne
  · rfl
  · have hpos := List.length_pos_of_ne_nil hne
    have htake : (0 + (dir.length : ℤ)).toNat = dir.length := by omega
    rw [if_neg (by omega), if_neg hne, htake, List.take_left' rfl]

/-- A path whose directory is the text before its last slash: that text is normal, and the part
behind it neither stays in the directory nor leaves a name. -/
def ParentApart (front : List Part) (last : Part) : Prop :=
  front = [] ∨ Settled front ∧
    (IsName last ∨ (last = dotDot ∧ ∀ part ∈ front.getLast?, ¬ IsName part) ∨
      ((last = [] ∨ last = dot) ∧ (front = [dot] ∨ front = [[], []])))

/-- A path whose name is its last part: a name, a step up that is not undone, or the only part of a
path that stays. -/
def NameApart (absolute : Bool) (front : List Part) (last : Part) : Prop :=
  IsName last ∨ (last = dotDot ∧ (push (normal front) dotDot).getLast? = some dotDot) ∨
    (normal front = [] ∧ last = here absolute)

theorem isName_or {part : Part} (h : '/' ∉ part) : (part = [] ∨ part = dot) ∨ part = dotDot ∨ IsName part := by
  by_cases hstay : part = [] ∨ part = dot
  · exact Or.inl hstay
  · right
    by_cases hup : part = dotDot
    · exact Or.inl hup
    · rw [not_or] at hstay
      exact Or.inr ⟨hstay.1, hstay.2, hup, h⟩

/-- The runtimes name a path by one text if and only if its last part is its name. -/
theorem pathName_agree_iff {path : Path} (h : Slashed path) {front : List Part} {last : Part}
    (hsplit : split path = front ++ [last]) :
  pathName path = SelfHosted.pathName path ↔ NameApart (isAbsolute path) front last
  := by
  have hslash := (path_of_split hsplit).1
  rw [h.pathName_eq, selfHosted_pathName hsplit, hsplit, normal_concat]
  show (push (normal front) last).getLastD (here (isAbsolute path)) = last ↔ _
  have hhere : here (isAbsolute path) ≠ dotDot := by cases isAbsolute path <;> decide
  rcases isName_or hslash with hstay | rfl | hname
  · have hnot : ¬ IsName last := fun hname => hstay.elim hname.1 hname.2.1
    have hup : last ≠ dotDot := by rcases hstay with rfl | rfl <;> decide
    rw [push, if_pos hstay, NameApart, or_iff_right hnot, or_iff_right fun hboth => hup hboth.1]
    rcases List.eq_nil_or_concat (normal front) with hnil | ⟨parts, part, hparts⟩
    · rw [hnil]
      simp [eq_comm]
    · rw [List.concat_eq_append] at hparts
      obtain ⟨_, hpartNil, hpartDot⟩ :=
        @mem_normal front part (by rw [hparts]; exact List.mem_append_right _ (List.mem_singleton_self _))
      rw [hparts]
      have hne : part ≠ last := by rcases hstay with rfl | rfl <;> assumption
      simp [hne]
  · have hnot : ¬ IsName dotDot := fun hname => hname.2.2.1 rfl
    rw [NameApart, or_iff_right hnot, or_iff_left fun hboth => hhere hboth.2.symm, and_iff_right rfl]
    cases hlast : (push (normal front) dotDot).getLast? with
    | none => simp [List.getLastD_eq_getLast?, hlast, hhere]
    | some part => simp [List.getLastD_eq_getLast?, hlast]
  · rw [push_name hname, NameApart]
    simp [hname]

/-- The last part of a normal path is a name unless there are only steps up. -/
theorem tidy_last {parts : List Part} (h : Tidy true parts) (hparts : ∀ part ∈ parts, '/' ∉ part) :
  (∀ part ∈ parts.getLast?, ¬ IsName part) ↔ parts = [] ∨ parts.getLast? = some dotDot
  := by
  rcases List.eq_nil_or_concat parts with rfl | ⟨front, last, rfl⟩
  · simp
  · rw [List.concat_eq_append] at h hparts ⊢
    have hlast : last ∈ front ++ [last] := List.mem_append_right _ (List.mem_singleton_self _)
    obtain ⟨hnil, hdot⟩ := h.ne hlast
    simp [IsName, hnil, hdot, hparts last hlast]

theorem settled_last {front : List Part} (h : Settled front) (hfront : ∀ part ∈ front, '/' ∉ part) :
  (∀ part ∈ front.getLast?, ¬ IsName part) ↔ normal front = [] ∨ (normal front).getLast? = some dotDot
  := by
  unfold Settled at h
  split at h
  · exact h.elim
  · next parts hne =>
    have hcons : ([] :: parts).getLast? = parts.getLast? := by
      cases parts with
      | nil => exact absurd rfl hne
      | cons part parts => exact List.getLast?_cons_cons
    rcases h with rfl | htidy
    · simp [IsName, normal, push]
    · rw [hcons, show normal ([] :: parts) = normal parts from rfl, htidy.normal_eq]
      exact tidy_last htidy fun part hpart => hfront part (List.mem_cons_of_mem _ hpart)
  · rcases h with rfl | htidy
    · simp [IsName, normal, push]
    · rw [htidy.normal_eq]
      exact tidy_last htidy hfront

theorem eq_nil_of_dropLast {parts : List Part} (h : parts = parts.dropLast) : parts = [] := by
  have hlen := congrArg List.length h
  rw [List.length_dropLast] at hlen
  exact List.length_eq_zero_iff.mp (by omega)

/-- The runtimes lead from a path to one directory if and only if it is the text before the last slash. -/
theorem pathParent_agree_iff {path : Path} (h : Slashed path) {front : List Part} {last : Part}
    (hsplit : split path = front ++ [last]) :
  pathParent path = SelfHosted.pathParent path ↔ ParentApart front last
  := by
  rw [h.pathParent_eq, parent, hsplit, normal_concat]
  obtain ⟨hlast, ⟨rfl, rfl⟩ | ⟨dir, hdir, rfl⟩⟩ := path_of_split hsplit
  · -- a part of the directory the path starts in
    have hself : SelfHosted.pathParent path = dot := by
      rw [SelfHosted.pathParent, SelfHosted.lastSlash, lastSlashFrom_of_not_mem _ _ hlast]
      rfl
    have habs : isAbsolute path = false := by
      cases path with
      | nil => rfl
      | cons c path =>
        have hc : c ≠ '/' := fun heq => hlast (heq ▸ List.mem_cons_self)
        simp [isAbsolute, hc]
    have hpush : (push (normal []) path).dropLast = [] := by
      unfold push
      split_ifs <;> rfl
    rw [hself, habs, hpush]
    simp [ParentApart, render, dot]
  · have hfront : front ≠ [] := by
      rw [← hdir]
      exact List.splitOn_ne_nil '/' dir
    have hfrontSlash : ∀ part ∈ front, '/' ∉ part := fun part hpart =>
      slash_not_mem_split (by rw [hdir]; exact hpart)
    rw [selfHosted_pathParent hlast, ParentApart, or_iff_right hfront]
    rcases Decidable.eq_or_ne dir [] with rfl | hne
    · -- a part of the top
      rw [← hdir, show split [] = [[]] from rfl]
      have hpush : (push (normal [[]]) last).dropLast = [] := by
        unfold push
        split_ifs <;> rfl
      rw [List.nil_append, hpush]
      simp [Settled, isAbsolute, render, dot]
    · have habs : isAbsolute (dir ++ '/' :: last) = isAbsolute dir := by
        obtain ⟨c, cs, rfl⟩ := List.exists_cons_of_ne_nil hne
        rfl
      have hsettled := simplify_eq_iff dir
      rw [simplify, hdir] at hsettled
      rw [habs, if_neg hne]
      -- a normal path has the parts it is rendered from
      have hparts {parts : List Part} (htidy : Tidy true parts) (hmem : ∀ part ∈ parts, part ∈ normal front)
          (heq : render (isAbsolute dir) parts = dir) : normal front = parts := by
        rw [← hdir, ← heq]
        apply normal_split_render _ htidy
        intro part hpart
        exact slash_not_mem_split (by rw [hdir]; exact (mem_normal (hmem part hpart)).1)
      rcases isName_or hlast with hstay | rfl | hname
      · have hnot : ¬ IsName last := fun hname => hstay.elim hname.1 hname.2.1
        have hup : last ≠ dotDot := by rcases hstay with rfl | rfl <;> decide
        rw [push, if_pos hstay, or_iff_right hnot, or_iff_right fun hboth => hup hboth.1, and_iff_right hstay]
        constructor
        · intro heq
          have hnormal := hparts (tidy_normal front).dropLast (fun part h => List.dropLast_subset _ h) heq
          have hnil := eq_nil_of_dropLast hnormal
          rw [hnil] at heq
          rw [← hdir, ← heq]
          cases isAbsolute dir
          · exact ⟨Or.inl rfl, Or.inl rfl⟩
          · exact ⟨Or.inl rfl, Or.inr rfl⟩
        · rintro ⟨_, hshort⟩
          have hjoin := join_split dir
          rw [hdir] at hjoin
          rcases hshort with rfl | rfl
          · rw [← hjoin]
            rfl
          · rw [← hjoin]
            rfl
      · have hnot : ¬ IsName dotDot := fun hname => hname.2.2.1 rfl
        have hmoves : ¬ ((dotDot = [] ∨ dotDot = dot) ∧ (front = [dot] ∨ front = [[], []])) := by
          rintro ⟨heq, _⟩
          exact absurd heq (by decide)
        rw [or_iff_right hnot, or_iff_left hmoves, and_iff_right rfl]
        by_cases hback : normal front ≠ [] ∧ (normal front).getLast? ≠ some dotDot
        · -- a name is undone
          rw [push, if_neg (by decide), if_pos rfl, if_pos hback]
          constructor
          · intro heq
            have hnormal := hparts (tidy_normal front).dropLast.dropLast
              (fun part h => List.dropLast_subset _ (List.dropLast_subset _ h)) heq
            have hlen := congrArg List.length hnormal
            rw [List.length_dropLast, List.length_dropLast] at hlen
            exact absurd (List.length_eq_zero_iff.mp (by omega)) hback.1
          · rintro ⟨hsettled, hname⟩
            have hend := (settled_last hsettled hfrontSlash).mp hname
            exact absurd hend (not_or.mpr hback)
        · have hend : normal front = [] ∨ (normal front).getLast? = some dotDot := by
            rw [not_and_or, not_not, not_not] at hback
            exact hback
          rw [push, if_neg (by decide), if_pos rfl, if_neg hback, List.dropLast_concat, hsettled]
          constructor
          · intro hsettled
            exact ⟨hsettled, (settled_last hsettled hfrontSlash).mpr hend⟩
          · exact And.left
      · rw [push_name hname, List.dropLast_concat, hsettled]
        simp [hname]

/-! ### Paths behind paths -/

/-- A path without the slash at its end. -/
def unslash (path : Path) : Path := if path.getLast? = some '/' then path.dropLast else path

/-- The parts of paths, each in the one before. -/
def chain : List Path → List Part
  | path :: next :: paths => split (unslash path) ++ chain (next :: paths)
  | [path] => split path
  | [] => []

/-- The paths that are not empty. -/
def nonempty (parts : List Path) : List Path := parts.filter fun part => part ≠ []

/-- Paths that make up a normal path with one slash between two of them. -/
def Joinable (parts : List Path) : Prop :=
  nonempty parts ≠ [] ∧ (parts.getLast? ≠ some [] ∨ nonempty parts = [['/']]) ∧ Settled (chain (nonempty parts))

theorem unslash_slash (path : Path) : unslash (path ++ ['/']) = path := by
  rw [unslash, if_pos List.getLast?_concat, List.dropLast_concat]

theorem joinPart_of_ne_nil {out : Path} (hne : out ≠ []) (part : Path) :
  SelfHosted.joinPart out part = unslash out ++ '/' :: part
  := by
  have hpos := List.length_pos_of_ne_nil hne
  unfold SelfHosted.joinPart
  rcases eq_or_ne (out.getLast?) (some '/') with hlast | hlast
  · obtain ⟨front, last, rfl⟩ := (List.eq_nil_or_concat out).resolve_left hne
    rw [List.concat_eq_append] at hlast hpos ⊢
    rw [List.getLast?_concat] at hlast
    cases hlast
    rw [unslash_slash, if_neg fun h => h.2 List.getLast?_concat]
    simp
  · rw [unslash, if_neg hlast, if_pos ⟨hpos, hlast⟩]
    simp

theorem unslash_joinPart {out part : Path} (hne : out ≠ []) (hpart : part ≠ []) :
  unslash (SelfHosted.joinPart out part) = unslash out ++ '/' :: unslash part
  := by
  rw [joinPart_of_ne_nil hne]
  generalize unslash out = front
  unfold unslash
  rw [List.getLast?_append_of_ne_nil _ (List.cons_ne_nil _ _), List.getLast?_cons_of_ne_nil hpart]
  split_ifs
  · rw [List.dropLast_append_of_ne_nil (List.cons_ne_nil _ _), List.dropLast_cons_of_ne_nil hpart]
  · rfl

/-- The parts of paths that are put behind others. -/
theorem split_foldl_joinPart {out : Path} (hne : out ≠ []) {paths : List Path} (hpaths : ∀ path ∈ paths, path ≠ []) :
  split (paths.foldl SelfHosted.joinPart out) = chain (out :: paths)
  := by
  induction paths generalizing out with
  | nil => rfl
  | cons path paths ih =>
    have hpath := hpaths path List.mem_cons_self
    have hjoin : SelfHosted.joinPart out path ≠ [] := by
      rw [joinPart_of_ne_nil hne]
      simp
    rw [List.foldl_cons, ih hjoin fun p h => hpaths p (List.mem_cons_of_mem _ h)]
    cases paths with
    | nil =>
      rw [chain, chain, chain, joinPart_of_ne_nil hne, split_join]
    | cons next paths =>
      rw [chain, chain, chain, unslash_joinPart hne hpath, split_join, List.append_assoc]

/-- A slash at the end does not matter to what is put behind. -/
theorem joinPart_slash {out : Path} (hne : out ≠ []) (part : Path) :
  SelfHosted.joinPart (unslash out ++ ['/']) part = SelfHosted.joinPart out part
  := by
  rw [joinPart_of_ne_nil hne, joinPart_of_ne_nil (by simp), unslash_slash]

theorem ne_nil_of_mem_nonempty {parts : List Path} {part : Path} (h : part ∈ nonempty parts) : part ≠ [] := by
  simpa using (List.mem_filter.mp h).2

theorem nonempty_concat (parts : List Path) (part : Path) :
  nonempty (parts ++ [part]) = if part = [] then nonempty parts else nonempty parts ++ [part]
  := by
  unfold nonempty
  rw [List.filter_append]
  split_ifs with hpart <;> simp [hpart]

/-- Empty paths leave at most a slash at the end. -/
theorem foldl_joinPart_nonempty (parts : List Path) :
  parts.foldl SelfHosted.joinPart [] =
    if parts.getLast? = some [] ∧ (nonempty parts).foldl SelfHosted.joinPart [] ≠ [] then
      unslash ((nonempty parts).foldl SelfHosted.joinPart []) ++ ['/']
    else (nonempty parts).foldl SelfHosted.joinPart []
  := by
  induction parts using List.reverseRecOn with
  | nil => rfl
  | append_singleton parts part ih =>
    have hjoin : ((parts ++ [part]).foldl SelfHosted.joinPart []) =
        SelfHosted.joinPart ((nonempty parts).foldl SelfHosted.joinPart []) part := by
      rw [List.foldl_append, List.foldl_cons, List.foldl_nil, ih]
      split_ifs with hslash
      · exact joinPart_slash hslash.2 part
      · rfl
    rw [hjoin, List.getLast?_concat, nonempty_concat]
    rcases eq_or_ne part [] with rfl | hpart
    · rw [if_pos rfl]
      rcases eq_or_ne ((nonempty parts).foldl SelfHosted.joinPart []) [] with hnil | hne
      · rw [hnil]
        rfl
      · rw [if_pos ⟨rfl, hne⟩, joinPart_of_ne_nil hne]
    · rw [if_neg hpart, List.foldl_append, List.foldl_cons, List.foldl_nil,
        if_neg fun h => hpart (Option.some.inj h.1)]

theorem length_joinPart (out part : Path) :
  out.length + part.length ≤ (SelfHosted.joinPart out part).length
  := by
  unfold SelfHosted.joinPart
  split_ifs <;> simp

theorem length_foldl_joinPart (out : Path) (paths : List Path) :
  out.length ≤ (paths.foldl SelfHosted.joinPart out).length
  := by
  induction paths generalizing out with
  | nil => exact Nat.le_refl _
  | cons path paths ih =>
    have hle := length_joinPart out path
    exact Nat.le_trans (by omega) (ih _)

theorem eq_slash_of_unslash {path : Path} (hne : path ≠ []) (h : unslash path = []) : path = ['/'] := by
  unfold unslash at h
  split_ifs at h with hlast
  · obtain ⟨front, last, rfl⟩ := (List.eq_nil_or_concat path).resolve_left hne
    rw [List.concat_eq_append] at h hlast ⊢
    rw [List.dropLast_concat] at h
    rw [List.getLast?_concat] at hlast
    cases hlast
    rw [h]
    rfl
  · exact absurd h hne

/-- A settled path has no slash at its end unless it is the top. -/
theorem eq_of_settled_slash {parts : List Part} (hne : parts ≠ []) (h : Settled (parts ++ [[]])) : parts = [[]] := by
  have hend {parts : List Part} {up : Bool} (h : Tidy up (parts ++ [[]])) : False :=
    (h.ne (List.mem_append_right _ (List.mem_singleton_self _))).1 rfl
  obtain ⟨part, parts, rfl⟩ := List.exists_cons_of_ne_nil hne
  cases part with
  | nil =>
    cases parts with
    | nil => rfl
    | cons part parts =>
      rcases h with heq | htidy
      · cases parts <;> cases heq
      · exact (hend htidy).elim
  | cons c part =>
    rcases h with heq | htidy
    · cases parts <;> cases heq
    · exact (@hend ((c :: part) :: parts) true htidy).elim

/-- The parts of what paths are put behind each other to are settled if and only if the paths can be
joined. -/
theorem settled_foldl_joinPart (parts : List Path) :
  Settled (split (parts.foldl SelfHosted.joinPart [])) ↔ Joinable parts
  := by
  rw [foldl_joinPart_nonempty, Joinable]
  cases hpaths : nonempty parts with
  | nil => simp [split, Settled]
  | cons path paths =>
    have hne {path' : Path} (h : path' ∈ path :: paths) : path' ≠ [] :=
      ne_nil_of_mem_nonempty (by rw [hpaths]; exact h)
    have hpath := hne List.mem_cons_self
    have hpos := List.length_pos_of_ne_nil hpath
    rw [List.foldl_cons, show SelfHosted.joinPart [] path = path from rfl]
    have hchain := split_foldl_joinPart hpath fun path' h => hne (List.mem_cons_of_mem _ h)
    have hjoined : paths.foldl SelfHosted.joinPart path ≠ [] := by
      have hle := length_foldl_joinPart path paths
      exact List.ne_nil_of_length_pos (by omega)
    rw [and_iff_right (List.cons_ne_nil _ _)]
    by_cases hlast : parts.getLast? = some []
    · rw [if_pos ⟨hlast, hjoined⟩, split_join, or_iff_right (not_not.mpr hlast)]
      constructor
      · intro hsettled
        have hslash := eq_of_settled_slash (List.splitOn_ne_nil '/' _) hsettled
        have htop := join_split (unslash (paths.foldl SelfHosted.joinPart path))
        rw [show split _ = [[]] from hslash] at htop
        have heq := eq_slash_of_unslash hjoined htop.symm
        cases paths with
        | nil =>
          rw [show path = ['/'] from heq]
          exact ⟨rfl, Or.inl rfl⟩
        | cons next paths =>
          have hle := length_foldl_joinPart (SelfHosted.joinPart path next) paths
          have hnext := List.length_pos_of_ne_nil (hne (List.mem_cons_of_mem _ List.mem_cons_self))
          have hsum := length_joinPart path next
          rw [List.foldl_cons] at heq
          rw [heq, List.length_singleton] at hle
          omega
      · rintro ⟨heq, _⟩
        cases heq
        exact Or.inl rfl
    · rw [if_neg fun h => hlast h.1, hchain, and_iff_right (Or.inl hlast)]

/-- Paths that lead to one place, written in one way or another. -/
def Alike (out out' : Path) : Prop :=
  (out = [] ↔ out' = []) ∧ isAbsolute out = isAbsolute out' ∧ normal (split out) = normal (split out')

theorem normal_unslash (path : Path) : normal (split (unslash path)) = normal (split path) := by
  unfold unslash
  split_ifs with hlast
  · obtain ⟨front, last, rfl⟩ := (List.eq_nil_or_concat path).resolve_left (by rintro rfl; cases hlast)
    rw [List.concat_eq_append] at hlast ⊢
    rw [List.getLast?_concat] at hlast
    cases hlast
    rw [List.dropLast_concat, split_join]
    exact (normal_concat (split front) []).symm
  · rfl

theorem isAbsolute_unslash {path : Path} (hne : path ≠ []) (part : Path) :
  isAbsolute (unslash path ++ '/' :: part) = isAbsolute path
  := by
  obtain ⟨c, path, rfl⟩ := List.exists_cons_of_ne_nil hne
  unfold unslash
  split_ifs with hlast
  · cases path with
    | nil =>
      cases hlast
      rfl
    | cons d path => rfl
  · rfl

/-- Both runtimes put a path behind paths that lead to one place. -/
theorem Alike.joinPart {out out' : Path} (h : Alike out out') (part : Path) :
  Alike (joinPart out part) (SelfHosted.joinPart out' part)
  := by
  obtain ⟨hnil, habs, hnormal⟩ := h
  rcases eq_or_ne out [] with rfl | hne
  · rw [hnil.mp rfl]
    have hjoin : Sys.joinPart [] part = part := by
      unfold Sys.joinPart
      split_ifs with hpart hout
      · exact hpart.symm
      · rfl
      · exact absurd rfl hout
    rw [hjoin]
    exact ⟨Iff.rfl, rfl, rfl⟩
  · have hne' : out' ≠ [] := fun heq => hne (hnil.mpr heq)
    rw [joinPart_of_ne_nil hne', Sys.joinPart, if_neg hne]
    unfold Alike
    rw [isAbsolute_unslash hne', split_join, normal_append, normal_unslash, ← habs, ← hnormal]
    split_ifs with hpart
    · subst hpart
      exact ⟨by simp [hne], rfl, rfl⟩
    · rw [split_join, normal_append]
      obtain ⟨c, out, rfl⟩ := List.exists_cons_of_ne_nil hne
      exact ⟨by simp, rfl, rfl⟩

theorem pathDrive_append (c d : Char) (path path' : Path) :
  pathDrive (c :: d :: path ++ path') = pathDrive (c :: d :: path)
  := by
  rw [List.cons_append, List.cons_append]
  unfold pathDrive
  split
  · next heq =>
    cases heq
    rfl
  · next hcolon =>
    split
    · next heq =>
      cases heq
      exact absurd rfl (hcolon _ _)
    · rfl

/-- A path behind another one has no drive either. -/
theorem Slashed.joinPart {out part : Path} (hout : Slashed out) (hpart : Slashed part) :
  Slashed (joinPart out part)
  := by
  unfold Sys.joinPart
  split_ifs with hnil hne
  · exact hout
  · exact hpart
  · refine ⟨?_, ?_⟩
    · intro hmem
      rcases List.mem_append.mp hmem with hmem | hmem
      · exact hout.back hmem
      · rcases List.mem_cons.mp hmem with heq | hmem
        · cases heq
        · exact hpart.back hmem
    · obtain ⟨c, out, rfl⟩ := List.exists_cons_of_ne_nil hne
      cases out with
      | nil => rfl
      | cons d out =>
        exact (pathDrive_append c d out _).trans hout.drive

/-- The runtimes join paths to one text if and only if the paths can be joined. -/
theorem pathJoin_agree_iff {parts : List Path} (h : ∀ part ∈ parts, Slashed part) :
  pathJoin parts = SelfHosted.pathJoin parts ↔ Joinable parts
  := by
  have hrun {out out' : Path} (hout : Slashed out) (halike : Alike out out') :
      Slashed (parts.foldl joinPart out) ∧
        Alike (parts.foldl joinPart out) (parts.foldl SelfHosted.joinPart out') := by
    induction parts generalizing out out' with
    | nil => exact ⟨hout, halike⟩
    | cons part parts ih =>
      exact ih (fun p hp => h p (List.mem_cons_of_mem _ hp)) (hout.joinPart (h part List.mem_cons_self))
        (halike.joinPart part)
  have hempty : Slashed [] := ⟨List.not_mem_nil, rfl⟩
  obtain ⟨hslashed, _, habs, hnormal⟩ := hrun hempty ⟨Iff.rfl, rfl, rfl⟩
  rw [pathJoin, SelfHosted.pathJoin, hslashed.pathNormalize_eq, simplify, habs, hnormal,
    ← settled_foldl_joinPart, ← simplify_eq_iff]
  rfl

end Caster.Sys
