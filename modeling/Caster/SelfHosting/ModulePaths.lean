import Caster.Library.Spellings
import Caster.SelfHosting.LoaderAgreement

/-!
# Paths of modules

The paths `normalizePath` makes, and the spellings of a path under which a loaded module is found
again.
-/

namespace Caster.SelfHosting

open Driver (Text Path FileSystem)
open UnixPath

/-- A path is among some paths. -/
def containsPath (paths : List Path) (path : Path) : Bool := paths.any fun e => e == path

theorem containsPath_iff {paths : List Path} {path : Path} :
  containsPath paths path = true ↔ path ∈ paths
  := by simp [containsPath]

/-- The components of a path, behind the slash of the root. -/
def components (path : Path) : List Text :=
  if relative path = [] then [] else split (relative path)

/-- A path is the dot alone, or its components move; the steps up come before the names. -/
structure NormalForm (path : Path) : Prop where
  ne_nil : path ≠ []
  moves : path = dot ∨ ∀ part ∈ components path, part ≠ [] ∧ part ≠ dot
  up : ∃ k names, components path = List.replicate k dotDot ++ names ∧ dotDot ∉ names

/-- The components of a path of tidy parts. -/
theorem components_render (absolute : Bool) {parts : List Text} (h : Tidy true parts)
    (hparts : ∀ part ∈ parts, '/' ∉ part) :
  components (render absolute parts) = if parts = [] ∧ absolute = false then [dot] else parts
  := by
  have hboth : ∀ part ∈ parts, part ≠ [] ∧ '/' ∉ part :=
    fun part hpart => ⟨(h.ne hpart).1, hparts part hpart⟩
  rcases Decidable.eq_or_ne parts [] with rfl | hne
  · cases absolute <;> rfl
  · have hjoin := intercalate_ne_nil hne fun part hpart => (hboth part hpart).1
    have hsplit := List.splitOn_intercalate '/' hparts hne
    have hrelative : relative (render absolute parts) = ['/'].intercalate parts := by
      have habsolute := isAbsolute_render hboth absolute
      rw [relative, habsolute, render, if_neg fun h => hjoin (List.append_eq_nil_iff.mp h).2]
      cases absolute <;> rfl
    rw [components, hrelative, if_neg hjoin, if_neg fun h => hne h.1]
    exact hsplit

theorem normalForm_simplify (path : Path) : NormalForm (simplify path) := by
  have htidy := tidy_normal (split path)
  have hcomponents := components_render (isAbsolute path) htidy
    fun part hpart => (@normal_split_ne path part hpart).2
  rw [show render (isAbsolute path) (normal (split path)) = simplify path from rfl] at hcomponents
  refine ⟨render_ne_nil _ _, ?_, ?_⟩
  · by_cases hhere : normal (split path) = [] ∧ isAbsolute path = false
    · left
      rw [simplify, hhere.1, hhere.2]
      rfl
    · right
      rw [hcomponents, if_neg hhere]
      exact fun part hpart => htidy.ne hpart
  · rw [hcomponents]
    split_ifs
    · exact ⟨0, [dot], rfl, by decide⟩
    · obtain ⟨k, names, hparts, hnames, -⟩ := htidy.exists_names
      exact ⟨k, names, hparts, hnames⟩

/-! ### Marks -/

section

variable {fs : FileSystem}

theorem loaded_subset_loadUse {load : SourceFile → Text → List Path → Option LoadResult}
    (hload : ∀ source module loaded child, load source module loaded = some child →
      loaded ⊆ child.loaded)
    {fromPath : Path} {result result' : LoadResult} {use : UseDecl}
    (h : loadUse fs load fromPath result use = some result') :
  result.loaded ⊆ result'.loaded
  := by
  unfold loadUse at h
  split_ifs at h with hlocal
  · obtain ⟨childSource, -, h⟩ := Option.bind_eq_some_iff.mp h
    obtain ⟨child, hchild, h⟩ := Option.bind_eq_some_iff.mp h
    have hsubset := hload _ _ _ _ hchild
    cases h
    exact hsubset
  · cases h
    exact List.Subset.refl _

theorem loaded_subset_foldlM {load : SourceFile → Text → List Path → Option LoadResult}
    (hload : ∀ source module loaded child, load source module loaded = some child →
      loaded ⊆ child.loaded)
    {fromPath : Path} {uses : List UseDecl} {result result' : LoadResult}
    (h : uses.foldlM (loadUse fs load fromPath) result = some result') :
  result.loaded ⊆ result'.loaded
  := by
  induction uses generalizing result with
  | nil =>
    cases h
    exact List.Subset.refl _
  | cons use uses ih =>
    rw [List.foldlM_cons] at h
    obtain ⟨mid, hmid, h⟩ := Option.bind_eq_some_iff.mp h
    exact List.Subset.trans (loaded_subset_loadUse hload hmid) (ih h)

theorem normalizePath_ne_nil (path : Path) : normalizePath path ≠ [] := by
  rw [normalizePath_eq]
  exact render_ne_nil _ _

/-- A marked file is not loaded again. -/
theorem loadFrom_marked (n : ℕ) {source : SourceFile} (hpath : source.path ≠ []) (module : Text)
    {loaded : List Path} (h : normalizePath source.path ∈ loaded) :
  loadFrom fs (n + 1) source module loaded = some ⟨{}, loaded, []⟩
  := by
  rw [loadFrom, if_neg hpath]
  dsimp only
  rw [if_pos ⟨normalizePath_ne_nil _, h⟩]
  rfl

/-- A file that is loaded is marked, and what was marked stays so. -/
theorem loaded_subset {n : ℕ} {source : SourceFile} {module : Text} {loaded : List Path}
    {result : LoadResult} (h : loadFrom fs n source module loaded = some result) :
  loaded ⊆ result.loaded ∧ (source.path ≠ [] → normalizePath source.path ∈ result.loaded)
  := by
  induction n generalizing source module loaded result with
  | zero => cases h
  | succ n ih =>
    have huses := @loaded_subset_foldlM fs (loadFrom fs n) fun _ _ _ _ hchild => (ih hchild).1
    by_cases hpath : source.path = []
    · refine ⟨?_, absurd hpath⟩
      rw [loadFrom, if_pos hpath] at h
      dsimp only at h
      rw [if_neg (by simp)] at h
      obtain ⟨parsed, -, h⟩ := Option.bind_eq_some_iff.mp h
      obtain ⟨child, hchild, h⟩ := Option.bind_eq_some_iff.mp h
      have hsubset := huses hchild
      cases h
      exact hsubset
    · by_cases hmem : normalizePath source.path ∈ loaded
      · rw [loadFrom_marked n hpath module hmem] at h
        cases h
        exact ⟨List.Subset.refl _, fun _ => hmem⟩
      · rw [loadFrom, if_neg hpath] at h
        dsimp only at h
        rw [if_neg fun hseen => hmem hseen.2, if_neg (normalizePath_ne_nil _)] at h
        obtain ⟨parsed, -, h⟩ := Option.bind_eq_some_iff.mp h
        obtain ⟨child, hchild, h⟩ := Option.bind_eq_some_iff.mp h
        have hsubset := huses hchild
        cases h
        exact ⟨List.Subset.trans (List.subset_append_left _ _) hsubset,
          fun _ => hsubset (List.mem_append_right _ (List.mem_singleton_self _))⟩

/-- A normalized path has a normal form and stays, and a module is found again under the paths that
differ from its own by parts that do not move and by names that are undone. -/
theorem normalizePath_normal (path : Path) :
  NormalForm (normalizePath path) ∧ normalizePath (normalizePath path) = normalizePath path ∧
    (∀ path', normalizePath path' = normalizePath path ↔ Respelled path' path) ∧
    ∀ path', Respelled path' path → path ≠ [] → path' ≠ [] →
      ∀ n text module loaded result, loadFrom fs n ⟨path, text⟩ module loaded = some result →
        containsPath result.loaded (normalizePath path') = true ∧
          ∀ m text' module', loadFrom fs (m + 1) ⟨path', text'⟩ module' result.loaded =
            some ⟨{}, result.loaded, []⟩
  := by
  have hrespelled (path' : Path) : normalizePath path' = normalizePath path ↔ Respelled path' path := by
    rw [normalizePath_eq, normalizePath_eq]
    exact simplify_eq_simplify_iff path' path
  refine ⟨?_, ?_, hrespelled, ?_⟩
  · rw [normalizePath_eq]
    exact normalForm_simplify path
  · rw [normalizePath_eq, normalizePath_eq]
    exact simplify_simplify path
  · intro path' h hpath hpath' n text module loaded result hload
    have hmarked := (loaded_subset hload).2 hpath
    rw [← (hrespelled path').mpr h] at hmarked
    exact ⟨containsPath_iff.mpr hmarked, fun m text' module' => loadFrom_marked m hpath' module' hmarked⟩

end

/-- A file without declarations is found again under a path with an empty component, a dot and a step
back. -/
theorem normalizePath_normal_respelled :
  ∃ result, loadFrom ((twoFiles []).fileSystem []) 1 ⟨"/a/b.cast".toList, []⟩ [] [] = some result ∧
    loadFrom ((twoFiles []).fileSystem []) 1 ⟨"/a//x/.././b.cast".toList, []⟩ [] result.loaded =
      some ⟨{}, result.loaded, []⟩
  := by
  have hload : ∀ path : Path, path ≠ [] → ∃ result,
      loadFrom ((twoFiles []).fileSystem []) 1 ⟨path, []⟩ [] [] = some result := by
    intro path hpath
    obtain ⟨program, hparse, huses⟩ := imports_nil.parses (normalizePath path)
    rw [List.map_eq_nil_iff] at huses
    rw [loadFrom, if_neg hpath]
    dsimp only
    rw [if_neg fun h => List.not_mem_nil h.2, if_neg (normalizePath_ne_nil _), hparse,
      Option.bind_eq_bind, Option.bind_some, huses]
    exact ⟨_, rfl⟩
  have hrespelled : Respelled "/a//x/.././b.cast".toList "/a/b.cast".toList :=
    (simplify_eq_simplify_iff _ _).mp (by decide)
  obtain ⟨result, hresult⟩ := hload "/a/b.cast".toList (by decide)
  have hfound := ((normalizePath_normal "/a/b.cast".toList).2.2.2 "/a//x/.././b.cast".toList hrespelled
    (by decide) (by decide) 1 [] [] [] result hresult).2 0 [] []
  rw [Nat.zero_add] at hfound
  exact ⟨result, hresult, hfound⟩

/-- The empty path is normalized to a dot. -/
theorem not_normalForm_empty :
  ¬ ∀ path, ∀ part ∈ components (normalizePath path), part ≠ [] ∧ part ≠ dot
  := by
  intro h
  exact absurd rfl (h [] dot (by decide)).2

end Caster.SelfHosting
