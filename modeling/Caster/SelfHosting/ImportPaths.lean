import Caster.Driver.Disk
import Caster.SelfHosting.Loader

/-!
# Paths of imports

An import of a file of the program leads both loaders to one file, although one of them names it
by its path from the top and the other by the path its importer was reached by.
-/

namespace Caster.SelfHosting

open Driver (Text Path Disk FileSystem casterExt pathWithCasterExt pathDirname importPath)
open UnixPath Sys

/-- A spec of a file of the program: it starts with a dot, ends with a name, and has only slashes
between its parts. -/
structure LocalSpec (spec : Text) : Prop where
  isLocal : isLocalSpec spec = true
  plain : PlainPath spec
  named : ∃ front name, split spec = front ++ [name] ∧ IsName name

theorem LocalSpec.plain_import {path spec : Path} (hspec : LocalSpec spec) (hplain : PlainPath path) :
  PlainPath (pathParent path ++ '/' :: spec)
  := by
  have hslash : PlainPath ['/'] := fun c hc => by
    rw [List.mem_singleton.mp hc]
    exact ⟨by decide, by decide⟩
  rw [hplain.slashed.pathParent_eq]
  exact hplain.parent.append (hslash.append hspec.plain)

theorem pathJoin_pathParent {path spec : Path} (hplain : PlainPath path) (hspec : LocalSpec spec) :
  pathJoin [pathParent path, spec] = simplify (pathParent path ++ '/' :: spec)
  := by
  have hne : spec ≠ [] := by
    rintro rfl
    exact absurd hspec.isLocal (by decide)
  have hparent : pathParent path ≠ [] := by
    rw [hplain.slashed.pathParent_eq]
    exact render_ne_nil _ _
  have hparts : [pathParent path, spec].foldl joinPart [] = pathParent path ++ '/' :: spec := by
    simp [joinPart, hne, hparent]
  rw [pathJoin, hparts, (hspec.plain_import hplain).slashed.pathNormalize_eq]

/-- The path of an import is plain as well. -/
theorem plain_resolveImportPath {path spec : Path} (hplain : PlainPath path) (hspec : LocalSpec spec) :
  PlainPath (resolveImportPath path spec)
  := by
  have hext : PlainPath casterExt := by
    intro c hc
    constructor
    · rintro rfl
      exact absurd hc (by decide)
    · rintro rfl
      exact absurd hc (by decide)
  rw [resolveImportPath, if_pos hspec.isLocal, pathJoin_pathParent hplain hspec, normalizePath_eq, ensureCastExt]
  have hpath := (hspec.plain_import hplain).simplify.simplify
  split_ifs
  · exact hpath
  · exact hpath.append hext

/-! ### Extensions -/

theorem ensureCastExt_eq (path : Path) : ensureCastExt path = pathWithCasterExt path := rfl

theorem suffix_slash_iff {ext : Text} (hext : '/' ∉ ext) (before name : Text) :
  ext <:+ before ++ '/' :: name ↔ ext <:+ name
  := by
  constructor
  · intro h
    have hname : ('/' :: name) <:+ before ++ '/' :: name := List.suffix_append _ _
    rcases List.suffix_or_suffix_of_suffix h hname with hle | hle
    · rcases List.suffix_cons_iff.mp hle with heq | hle
      · exact absurd (heq ▸ List.mem_cons_self) hext
      · exact hle
    · exact absurd (hle.subset List.mem_cons_self) hext
  · intro h
    exact h.trans ((List.suffix_cons _ _).trans (List.suffix_append _ _))

/-- The extension is that of the last part. -/
theorem split_pathWithCasterExt {path : Path} {front : List Text} {name : Text}
    (h : split path = front ++ [name]) :
  split (pathWithCasterExt path) = front ++ [pathWithCasterExt name]
  := by
  have hext : '/' ∉ casterExt := by decide
  have hpath : ['/'].intercalate (front ++ [name]) = path := by
    rw [← h]
    exact List.intercalate_splitOn '/'
  have hslash : '/' ∉ name := slash_not_mem_split (by rw [h]; exact List.mem_append_right _ (List.mem_singleton_self _))
  have hsuffix : casterExt <:+ path ↔ casterExt <:+ name := by
    rw [← hpath]
    cases front with
    | nil => rw [List.nil_append, List.intercalate_singleton]
    | cons first front => rw [intercalate_concat (List.cons_ne_nil _ _), suffix_slash_iff hext]
  have hlong : split (path ++ casterExt) = front ++ [name ++ casterExt] := by
    have hjoin : path ++ casterExt = ['/'].intercalate (front ++ [name ++ casterExt]) := by
      rw [← hpath]
      cases front with
      | nil => simp
      | cons first front =>
        rw [intercalate_concat (List.cons_ne_nil _ _), intercalate_concat (List.cons_ne_nil _ _)]
        simp
    rw [hjoin]
    apply List.splitOn_intercalate
    · intro part hpart
      rcases List.mem_append.mp hpart with hpart | hpart
      · exact slash_not_mem_split (by rw [h]; exact List.mem_append_left _ hpart)
      · rw [List.mem_singleton.mp hpart, List.mem_append, not_or]
        exact ⟨hslash, hext⟩
    · simp
  unfold pathWithCasterExt
  simp only [List.isSuffixOf_iff_suffix, hsuffix]
  split_ifs
  · exact h
  · exact hlong

section

variable {disk : Disk} {repoRoot : Path} {path : Path} {dir : List Text} {name : Text}

/-- The file a path names, with the extension. -/
theorem find_pathWithCasterExt (h : Points disk.isDir disk.cwd path dir name) :
  disk.find (pathWithCasterExt path) = step disk.isDir dir (pathWithCasterExt name)
  := by
  obtain ⟨front, hsplit, hwalk⟩ := h
  have hne : pathWithCasterExt path ≠ [] := by
    unfold pathWithCasterExt
    split_ifs with hext
    · rintro rfl
      exact absurd hext (by decide)
    · simp [casterExt]
  have habs : isAbsolute (pathWithCasterExt path) = isAbsolute path := by
    unfold pathWithCasterExt
    split_ifs
    · rfl
    · cases path <;> rfl
  rw [Disk.find, locate, if_neg hne, habs, split_pathWithCasterExt hsplit, walk, List.foldlM_append]
  rw [walk] at hwalk
  rw [hwalk]
  exact walk_singleton

/-- The directory of a file from the top. -/
theorem pathDirname_render {front : List Text} {last : Text} (hnames : ∀ part ∈ front ++ [last], IsName part) :
  pathDirname (render true (front ++ [last])) = render true front
  := by
  have hlast := hnames last (List.mem_append_right _ (List.mem_singleton_self _))
  have hpath : ∃ before, render true (front ++ [last]) = before ++ '/' :: last ∧
      (if before = [] then ['/'] else before) = render true front := by
    cases front with
    | nil =>
      refine ⟨[], ?_, rfl⟩
      rw [List.nil_append, render_singleton true hlast.1]
      rfl
    | cons first front =>
      refine ⟨render true (first :: front), ?_, if_neg (render_ne_nil _ _)⟩
      exact render_concat true (List.cons_ne_nil _ _)
        (fun part hpart => (hnames part (List.mem_append_left _ hpart)).1) last
  obtain ⟨before, hbefore, hdir⟩ := hpath
  have hslash : ∀ c ∈ last.reverse, decide (c ≠ '/') = true := by
    intro c hc
    rw [decide_eq_true_iff]
    rintro rfl
    exact hlast.2.2.2 (List.mem_reverse.mp hc)
  rw [hbefore, ← hdir, pathDirname, if_pos (by simp)]
  dsimp only
  rw [List.reverse_append, List.reverse_cons, List.append_assoc, List.dropWhile_append_of_pos hslash,
    List.singleton_append, List.dropWhile_cons_of_neg (by simp), List.drop_one, List.tail_cons]
  simp only [List.reverse_eq_nil_iff, List.reverse_reverse]

/-- The path an import leads to from the path its importer was reached by. -/
theorem find_resolveImportPath {loc found : List Text} {text spec : Text} (hplain : PlainPath path)
    (hpath : disk.find path = some loc) (htext : disk.textAt loc = some text) (hspec : LocalSpec spec)
    (hfound : disk.find (importPath (disk.fileSystem repoRoot) (render true loc) spec) = some found) :
  disk.find (resolveImportPath path spec) = some found
  := by
  obtain ⟨init, name, hsplit, hname⟩ := hspec.named
  have hhead : spec.head? = some '.' := of_decide_eq_true hspec.isLocal
  have hloc : loc ≠ [] := by
    rintro rfl
    have hdir := Disk.not_isDir htext
    rw [Disk.isDir_root] at hdir
    cases hdir
  obtain ⟨front, last, rfl⟩ := (List.eq_nil_or_concat loc).resolve_left hloc
  rw [List.concat_eq_append] at hpath htext hfound
  have hdirname : pathDirname (render true (front ++ [last])) = render true front :=
    pathDirname_render fun part hpart => Disk.isName_of_textAt htext hpart
  have hfront : disk.find (render true front) = some front :=
    Disk.find_render htext (List.prefix_append _ _)
  -- the path from the top names the file in a directory
  have htop : importPath (disk.fileSystem repoRoot) (render true (front ++ [last])) spec =
      pathWithCasterExt (render true front ++ '/' :: spec) := by
    rw [importPath, hhead, hdirname, if_neg (by decide), if_pos rfl]
  rw [htop] at hfound
  have hdir : ∃ dir, walk disk.isDir front init = some dir := by
    have hparts := split_pathWithCasterExt
      (show split (render true front ++ '/' :: spec) = (split (render true front) ++ init) ++ [name] by
        rw [split_join, hsplit, List.append_assoc])
    have habs : isAbsolute (pathWithCasterExt (render true front ++ '/' :: spec)) =
        isAbsolute (render true front) := by
      obtain ⟨c, cs, hc⟩ := List.exists_cons_of_ne_nil (render_ne_nil true front)
      rw [hc]
      unfold pathWithCasterExt
      split_ifs <;> rfl
    unfold Disk.find locate at hfound hfront
    split_ifs at hfound hfront
    rw [hparts, habs] at hfound
    obtain ⟨dir, hdir, _⟩ := walk_concat.mp hfound
    obtain ⟨mid, hmid, hrest⟩ := walk_append.mp hdir
    rw [hfront] at hmid
    cases hmid
    exact ⟨dir, hrest⟩
  obtain ⟨dir, hdir⟩ := hdir
  have htopPoints := Points.join hfront hsplit hdir
  -- and so does the path from the importer
  have hparent : disk.find (pathParent path) = some front := by
    have hup := locate_parent Disk.isDir_root Disk.isDir_cwd (fun _ h => Disk.isDir_dropLast h) hpath
      (Disk.not_isDir htext)
    rw [List.dropLast_concat] at hup
    rw [hplain.slashed.pathParent_eq]
    exact hup
  have hjoin := pathJoin_pathParent hplain hspec
  have hpoints := Points.join hparent hsplit hdir
  have hpoints := (hpoints.simplify Disk.isDir_root Disk.isDir_cwd hname).simplify
    Disk.isDir_root Disk.isDir_cwd hname
  rw [resolveImportPath, if_pos hspec.isLocal, ensureCastExt_eq, hjoin, normalizePath_eq,
    find_pathWithCasterExt hpoints, ← find_pathWithCasterExt htopPoints]
  exact hfound

end

end Caster.SelfHosting
