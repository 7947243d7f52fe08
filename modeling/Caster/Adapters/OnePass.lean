import Caster.Adapters.Runtimes
import Caster.Library.NormalPaths

/-!
# Normal paths in one pass

One pass over a path leaves out fewer parts than a stack of parts does.  The paths of which it
leaves out enough are those whose parts that do not move stand alone, each behind another part.
-/

namespace Caster.Sys

open Driver (Text Path)
open UnixPath

/-! ### One pass -/

/-- The parts that are left after one pass. -/
def passed : List Part → List Part
  | part :: next :: parts =>
    if next = dot ∧ parts ≠ [] then if part = [] then passed parts else part :: passed parts
    else part :: passed (next :: parts)
  | parts => parts

/-- Parts of which one pass leaves those that are not left out: each may have one part behind it
that does not move. -/
def OnePass (up : Bool) : List Part → Prop
  | part :: next :: parts =>
    if next = dot ∧ parts ≠ [] then
      if part = [] then OnePass up parts
      else part ≠ dot ∧ (part = dotDot → up = true) ∧ OnePass (up && part = dotDot) parts
    else part ≠ [] ∧ part ≠ dot ∧ (part = dotDot → up = true) ∧ OnePass (up && part = dotDot) (next :: parts)
  | parts => Tidy up parts

/-- Parts of which one pass leaves the top. -/
def Top : List Part → Prop
  | part :: next :: parts => part = [] ∧ next = dot ∧ Top parts
  | parts => parts = [[]]

theorem passed_ne_nil {parts : List Part} (hne : parts ≠ []) : passed parts ≠ [] := by
  induction parts using passed.induct with
  | case1 next parts hdot ih =>
    rw [passed, if_pos hdot, if_pos rfl]
    exact ih hdot.2
  | case2 part next parts hdot hpart ih =>
    rw [passed, if_pos hdot, if_neg hpart]
    exact List.cons_ne_nil _ _
  | case3 part next parts hdot ih =>
    rw [passed, if_neg hdot]
    exact List.cons_ne_nil _ _
  | case4 parts hparts =>
    rw [passed]
    · exact hne
    · exact hparts

theorem foldl_push_passed (parts start : List Part) : (passed parts).foldl push start = parts.foldl push start := by
  have hstay (parts : List Part) {part : Part} (h : part = [] ∨ part = dot) : push parts part = parts := by
    rw [push, if_pos h]
  induction parts using passed.induct generalizing start with
  | case1 next parts hdot ih =>
    rw [passed, if_pos hdot, if_pos rfl, ih, List.foldl_cons, List.foldl_cons, hstay start (Or.inl rfl),
      hstay start (Or.inr hdot.1)]
  | case2 part next parts hdot hpart ih =>
    rw [passed, if_pos hdot, if_neg hpart, List.foldl_cons, ih, List.foldl_cons, List.foldl_cons,
      hstay _ (Or.inr hdot.1)]
  | case3 part next parts hdot ih =>
    rw [passed, if_neg hdot, List.foldl_cons, ih]
    rfl
  | case4 parts hparts => rw [passed]; exact hparts

theorem normal_passed (parts : List Part) : normal (passed parts) = normal parts := foldl_push_passed parts []

theorem onePass_iff (up : Bool) (parts : List Part) : OnePass up parts ↔ Tidy up (passed parts) := by
  induction parts using passed.induct generalizing up with
  | case1 next parts hdot ih =>
    rw [passed, OnePass, if_pos hdot, if_pos hdot, if_pos rfl, if_pos rfl, ih]
  | case2 part next parts hdot hpart ih =>
    rw [passed, OnePass, if_pos hdot, if_pos hdot, if_neg hpart, if_neg hpart, ih, Tidy]
    exact (and_iff_right hpart).symm
  | case3 part next parts hdot ih =>
    rw [passed, OnePass, if_neg hdot, if_neg hdot, ih, Tidy]
  | case4 parts hparts =>
    rw [passed, OnePass]
    · exact hparts
    · exact hparts

theorem top_iff (parts : List Part) : Top parts ↔ passed parts = [[]] := by
  induction parts using passed.induct with
  | case1 next parts hdot ih =>
    rw [passed, Top, if_pos hdot, if_pos rfl, ih]
    simp [hdot.1]
  | case2 part next parts hdot hpart ih =>
    rw [passed, Top, if_pos hdot, if_neg hpart]
    simp [hpart]
  | case3 part next parts hdot ih =>
    have hne := passed_ne_nil (List.cons_ne_nil next parts)
    rw [passed, Top, if_neg hdot]
    constructor
    · rintro ⟨_, hnext, htop⟩
      have hparts : parts ≠ [] := by
        rintro rfl
        simp [Top] at htop
      exact absurd ⟨hnext, hparts⟩ hdot
    · intro heq
      exact absurd (List.cons.inj heq).2 hne
  | case4 parts hparts =>
    rw [passed, Top]
    · exact hparts
    · exact hparts

/-- One pass leaves the directory a path starts in only where there is nothing else. -/
theorem passed_eq_dot_iff {parts : List Part} (h : parts.head? ≠ some []) :
  passed parts = [dot] ↔ parts = [dot]
  := by
  unfold passed
  split
  · next part next parts =>
    have hpart : part ≠ [] := fun heq => h (by rw [heq]; rfl)
    constructor
    · intro heq
      split_ifs at heq with hdot
      · exact absurd (List.cons.inj heq).2 (passed_ne_nil hdot.2)
      · exact absurd (List.cons.inj heq).2 (passed_ne_nil (List.cons_ne_nil _ _))
    · intro heq
      cases heq
  · exact Iff.rfl

theorem mem_passed {parts : List Part} {part : Part} (h : part ∈ passed parts) : part ∈ parts := by
  induction parts using passed.induct with
  | case1 next parts hdot ih =>
    rw [passed, if_pos hdot, if_pos rfl] at h
    exact List.mem_cons_of_mem _ (List.mem_cons_of_mem _ (ih h))
  | case2 first next parts hdot hpart ih =>
    rw [passed, if_pos hdot, if_neg hpart] at h
    rcases List.mem_cons.mp h with rfl | h
    · exact List.mem_cons_self
    · exact List.mem_cons_of_mem _ (List.mem_cons_of_mem _ (ih h))
  | case3 first next parts hdot ih =>
    rw [passed, if_neg hdot] at h
    rcases List.mem_cons.mp h with rfl | h
    · exact List.mem_cons_self
    · exact List.mem_cons_of_mem _ (ih h)
  | case4 parts hparts =>
    rw [passed] at h
    · exact h
    · exact hparts

/-- A part without slashes is copied. -/
theorem normalizeFrom_append (out : Text) {part : Part} (hpart : '/' ∉ part) (path : Path) :
  SelfHosted.normalizeFrom out (part ++ path) = SelfHosted.normalizeFrom (out ++ part) path
  := by
  induction part generalizing out with
  | nil => simp
  | cons c part ih =>
    have hc : c ≠ '/' := fun heq => hpart (heq ▸ List.mem_cons_self)
    rw [List.cons_append, SelfHosted.normalizeFrom, ih _ fun h => hpart (List.mem_cons_of_mem _ h)]
    · simp
    · intro path' heq
      exact absurd heq hc

/-- A slash is copied if no directory that does not move is behind it. -/
theorem normalizeFrom_slash (out : Text) {path : Path} (hpath : ∀ path', path ≠ '.' :: '/' :: path') :
  SelfHosted.normalizeFrom out ('/' :: path) = SelfHosted.normalizeFrom (out ++ ['/']) path
  := by
  rw [SelfHosted.normalizeFrom]
  intro path' _ heq
  exact hpath path' heq

theorem normalizeFrom_part (out : Text) {part : Part} (hpart : '/' ∉ part) :
  SelfHosted.normalizeFrom out part = out ++ part
  := by
  have hcopied := normalizeFrom_append out hpart []
  rw [List.append_nil] at hcopied
  rw [hcopied, SelfHosted.normalizeFrom]

/-- The parts behind what was written are passed. -/
theorem normalizeFrom_parts (out : Text) {parts : List Part} (hne : parts ≠ [])
    (hparts : ∀ part ∈ parts, '/' ∉ part) (hout : parts.head? = some [] → out.getLast? = some '/') :
  SelfHosted.normalizeFrom out (['/'].intercalate parts) = out ++ ['/'].intercalate (passed parts)
  := by
  have hslash (out : Text) : (out ++ ['/']).getLast? = some '/' := List.getLast?_concat
  have hcons {part : Part} {parts : List Part} (h : parts ≠ []) :
      ['/'].intercalate (part :: parts) = part ++ '/' :: ['/'].intercalate parts := by
    obtain ⟨next, parts, rfl⟩ := List.exists_cons_of_ne_nil h
    rw [List.intercalate_cons_cons, List.append_assoc]
    rfl
  induction parts using passed.induct generalizing out with
  | case1 next parts hdot ih =>
    -- the directory is behind a slash
    have hlast := hout rfl
    have hsome : out ≠ [] := by
      rintro rfl
      cases hlast
    rw [passed, if_pos hdot, if_pos rfl, hcons (List.cons_ne_nil _ _), hcons hdot.2, hdot.1]
    show SelfHosted.normalizeFrom out ('/' :: '.' :: '/' :: ['/'].intercalate parts) = _
    rw [SelfHosted.normalizeFrom, if_neg (not_or.mpr ⟨hsome, not_not.mpr hlast⟩)]
    exact ih out hdot.2 (fun part h => hparts part (List.mem_cons_of_mem _ (List.mem_cons_of_mem _ h)))
      fun _ => hlast
  | case2 part next parts hdot hpart ih =>
    have hslashes := hparts part List.mem_cons_self
    have hlast : (out ++ part).getLast? ≠ some '/' := by
      rw [List.getLast?_append_of_ne_nil _ hpart]
      exact fun h => hslashes (List.mem_of_getLast? h)
    rw [passed, if_pos hdot, if_neg hpart, hcons (List.cons_ne_nil _ _), hcons hdot.2, hdot.1,
      hcons (passed_ne_nil hdot.2), normalizeFrom_append out hslashes]
    show SelfHosted.normalizeFrom _ ('/' :: '.' :: '/' :: ['/'].intercalate parts) = _
    rw [SelfHosted.normalizeFrom, if_pos (Or.inr hlast), ih _ hdot.2
      (fun part h => hparts part (List.mem_cons_of_mem _ (List.mem_cons_of_mem _ h))) fun _ => hslash _]
    simp
  | case3 part next parts hdot ih =>
    have hslashes := hparts part List.mem_cons_self
    have hnext := hparts next (List.mem_cons_of_mem _ List.mem_cons_self)
    have hcopied : ∀ path', ['/'].intercalate (next :: parts) ≠ '.' :: '/' :: path' := by
      intro path' heq
      have hsplit := List.splitOn_intercalate '/' (fun p h => hparts p (List.mem_cons_of_mem _ h))
        (List.cons_ne_nil next parts)
      rw [heq, show '.' :: '/' :: path' = dot ++ '/' :: path' from rfl, ← split, split_join] at hsplit
      obtain ⟨hfirst, hrest⟩ := List.cons.inj hsplit
      refine hdot ⟨hfirst.symm, ?_⟩
      rw [← hrest]
      exact List.splitOn_ne_nil '/' path'
    rw [passed, if_neg hdot, hcons (List.cons_ne_nil _ _), hcons (passed_ne_nil (List.cons_ne_nil _ _)),
      normalizeFrom_append out hslashes, normalizeFrom_slash _ hcopied,
      ih _ (List.cons_ne_nil _ _) (fun p h => hparts p (List.mem_cons_of_mem _ h)) fun _ => hslash _]
    simp
  | case4 parts htwo =>
    obtain ⟨part, rest, rfl⟩ := List.exists_cons_of_ne_nil hne
    have hrest : rest = [] := by
      rcases rest with _ | ⟨next, rest⟩
      · rfl
      · exact absurd rfl (htwo part next rest)
    subst hrest
    rw [passed, List.intercalate_singleton, normalizeFrom_part out (hparts part List.mem_cons_self)]
    exact htwo

/-- What was written stays. -/
theorem normalizeFrom_out (out : Text) (path : Path) :
  ∃ rest, SelfHosted.normalizeFrom out path = out ++ rest
  := by
  induction out, path using SelfHosted.normalizeFrom.induct with
  | case1 out path ih =>
    obtain ⟨rest, hrest⟩ := ih
    rw [SelfHosted.normalizeFrom, hrest]
    split_ifs
    · exact ⟨'/' :: rest, by simp⟩
    · exact ⟨rest, rfl⟩
  | case2 out c path hpath ih =>
    obtain ⟨rest, hrest⟩ := ih
    rw [SelfHosted.normalizeFrom, hrest]
    · exact ⟨c :: rest, by simp⟩
    · exact hpath
  | case3 out => exact ⟨[], by rw [SelfHosted.normalizeFrom, List.append_nil]⟩

theorem isAbsolute_normalizeFrom {path : Path} (h : isAbsolute path = true) :
  isAbsolute (SelfHosted.normalizeFrom [] path) = true
  := by
  obtain ⟨path, rfl⟩ : ∃ path', path = '/' :: path' := by
    cases path with
    | nil => cases h
    | cons c path =>
      have hc : c = '/' := by simpa [isAbsolute] using h
      exact ⟨path, by rw [hc]⟩
  have hslash (path : Path) : isAbsolute (SelfHosted.normalizeFrom ['/'] path) = true := by
    obtain ⟨rest, hrest⟩ := normalizeFrom_out ['/'] path
    rw [hrest]
    rfl
  by_cases hdot : ∃ path', path = '.' :: '/' :: path'
  · obtain ⟨path', rfl⟩ := hdot
    rw [SelfHosted.normalizeFrom, if_pos (Or.inl rfl)]
    exact hslash path'
  · rw [normalizeFrom_slash [] fun path' heq => hdot ⟨path', heq⟩]
    exact hslash path

/-! ### Normal paths -/

/-- The parts behind the directory a path starts in, which is left out once. -/
def afterDot : List Part → List Part
  | part :: next :: parts => if part = dot then next :: parts else part :: next :: parts
  | parts => parts

/-- A path of which one pass leaves out what can be left out. -/
def SinglePass (path : Path) : Prop :=
  let parts := afterDot (split (relative path))
  if isAbsolute path then Top parts ∨ OnePass true parts
  else parts.head? ≠ some [] ∧ (parts = [dot] ∨ OnePass true parts)

theorem mem_afterDot {parts : List Part} {part : Part} (h : part ∈ afterDot parts) : part ∈ parts := by
  unfold afterDot at h
  split at h
  · split_ifs at h
    · exact List.mem_cons_of_mem _ h
    · exact h
  · exact h

theorem afterDot_ne_nil {parts : List Part} (h : parts ≠ []) : afterDot parts ≠ [] := by
  unfold afterDot
  split
  · split_ifs <;> exact List.cons_ne_nil _ _
  · exact h

theorem normal_afterDot (parts : List Part) : normal (afterDot parts) = normal parts := by
  unfold afterDot
  split
  · next part next parts =>
    split_ifs with hdot
    · rw [hdot]
      rfl
    · rfl
  · rfl

theorem afterDot_split (path : Path) :
  (∃ path', path = '.' :: '/' :: path' ∧ afterDot (split path) = split path') ∨
    (∀ path', path ≠ '.' :: '/' :: path') ∧ afterDot (split path) = split path
  := by
  by_cases hdot : ∃ path', path = '.' :: '/' :: path'
  · left
    obtain ⟨path', rfl⟩ := hdot
    refine ⟨path', rfl, ?_⟩
    obtain ⟨next, parts, hsplit⟩ := List.exists_cons_of_ne_nil (List.splitOn_ne_nil '/' path')
    rw [show '.' :: '/' :: path' = dot ++ '/' :: path' from rfl, split_join]
    show afterDot (dot :: split path') = _
    rw [split, hsplit]
    rfl
  · right
    refine ⟨fun path' heq => hdot ⟨path', heq⟩, ?_⟩
    unfold afterDot
    split
    · next part next parts hsplit =>
      rw [hsplit, if_neg]
      rintro rfl
      have hpath := join_split path
      rw [hsplit, List.intercalate_cons_cons] at hpath
      exact hdot ⟨['/'].intercalate (next :: parts), by rw [← hpath]; rfl⟩
    · rfl

/-- A path from the top in one pass. -/
theorem pathNormalize_of_absolute (path : Path) :
  SelfHosted.pathNormalize ('/' :: path) = '/' :: ['/'].intercalate (passed (afterDot (split path)))
  := by
  have hpass (path : Path) :
      SelfHosted.normalizeFrom ['/'] path = '/' :: ['/'].intercalate (passed (split path)) := by
    have hparts := normalizeFrom_parts ['/'] (List.splitOn_ne_nil '/' path)
      (fun part hpart => slash_not_mem_split hpart) fun _ => rfl
    rw [List.intercalate_splitOn] at hparts
    exact hparts
  show SelfHosted.normalizeFrom [] ('/' :: path) = _
  rcases afterDot_split path with ⟨path', rfl, hafter⟩ | ⟨hpath, hafter⟩
  · rw [SelfHosted.normalizeFrom, if_pos (Or.inl rfl), hafter]
    exact hpass path'
  · rw [normalizeFrom_slash [] hpath, hafter]
    exact hpass path

/-- A path from here in one pass. -/
theorem pathNormalize_of_relative {path : Path} (h : isAbsolute path = false) :
  ∃ path', SelfHosted.pathNormalize path = SelfHosted.normalizeFrom [] path' ∧
    afterDot (split path) = split path'
  := by
  rcases afterDot_split path with ⟨path', rfl, hafter⟩ | ⟨hpath, hafter⟩
  · exact ⟨path', rfl, hafter⟩
  · refine ⟨path, ?_, hafter⟩
    unfold SelfHosted.pathNormalize
    split
    · next path' => exact absurd rfl (hpath path')
    · rfl

/-- The runtimes normalize a path to one text if and only if one pass is enough. -/
theorem pathNormalize_agree_iff {path : Path} (h : Slashed path) :
  pathNormalize path = SelfHosted.pathNormalize path ↔ SinglePass path
  := by
  have hnormal : normal (split path) = normal (passed (afterDot (split (relative path)))) := by
    rw [normal_passed, normal_afterDot, ← normal_relative]
  have hparts : ∀ part ∈ split (relative path), '/' ∉ part := fun part hpart => slash_not_mem_split hpart
  rw [h.pathNormalize_eq, simplify, hnormal, SinglePass, top_iff, onePass_iff]
  cases habs : isAbsolute path with
  | true =>
    have hiff := render_normal_iff true (passed_ne_nil (afterDot_ne_nil (List.splitOn_ne_nil '/' (relative path))))
      fun part hpart => slash_not_mem_split (mem_afterDot (mem_passed hpart))
    have hself : SelfHosted.pathNormalize path =
        '/' :: ['/'].intercalate (passed (afterDot (split (relative path)))) := by
      rw [← pathNormalize_of_absolute, ← relative_eq path, habs]
      rfl
    rw [hself, if_pos rfl, eq_comm]
    exact hiff
  | false =>
    have hrelative : relative path = path := by rw [relative, habs]; rfl
    rw [hrelative, if_neg Bool.false_ne_true]
    obtain ⟨path', hself, hafter⟩ := pathNormalize_of_relative habs
    rw [hself, hafter]
    by_cases hhead : (split path').head? = some []
    · -- an empty path, or one that leads to the top
      simp only [hhead, ne_eq, not_true_eq_false, false_and, iff_false]
      intro heq
      rcases Decidable.eq_or_ne path' [] with rfl | hne
      · exact render_ne_nil _ _ heq
      · have habs' : isAbsolute path' = true := by
          by_contra hnot
          exact head_split_relative hne (eq_false_of_ne_true hnot) hhead
        have hrender := isAbsolute_normalizeFrom habs'
        rw [← heq, isAbsolute_render] at hrender
        · cases hrender
        · intro part hpart
          obtain ⟨hmem, hnil, _⟩ := mem_normal hpart
          exact ⟨hnil, slash_not_mem_split (mem_passed hmem)⟩
    · have hne : split path' ≠ [] := List.splitOn_ne_nil '/' path'
      have hout := normalizeFrom_parts [] hne (fun part hpart => slash_not_mem_split hpart)
        fun h => absurd h hhead
      have hiff := render_normal_iff false (passed_ne_nil hne)
        fun part hpart => slash_not_mem_split (mem_passed hpart)
      rw [join_split] at hout
      rw [hout, eq_comm, and_iff_right hhead, ← passed_eq_dot_iff hhead]
      exact hiff

end Caster.Sys
