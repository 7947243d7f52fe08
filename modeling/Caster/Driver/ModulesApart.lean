import Caster.Driver.ImportOrder
import Caster.Driver.Prefixing

/-!
# Names of different modules

The names a local module exports are kept apart from those of other modules by a prefix that
is made of the last part of its path.  Different paths may give the same prefix, or prefixes
one of which goes on where the other one ends.
-/

namespace Caster.Driver

/-! ### Prefixed names -/

/-- An exported name as the text of its module is rewritten, where it is prefixed at all. -/
def prefixedName (pre name : Text) : Text := if pre.isPrefixOf name then name else pre ++ name

/-- The part of an exported name that comes behind the prefix. -/
def ownName (pre name : Text) : Text := if pre.isPrefixOf name then name.drop pre.length else name

theorem prefixedName_eq (pre name : Text) : prefixedName pre name = pre ++ ownName pre name := by
  unfold prefixedName ownName
  split_ifs with hpre
  · obtain ⟨rest, rfl⟩ := List.isPrefixOf_iff_prefix.mp hpre
    rw [List.drop_left]
  · rfl

/-- What the rewriting writes for an identifier it prefixes is the prefixed name. -/
theorem rewritePart_prefixedName {names : List Text} {pre before name after : Text}
    (h : shouldPrefixLocalIdent names pre before name after = true) :
  name ∈ names ∧ rewritePart (shouldPrefixLocalIdent names pre) pre (.ident before name after) =
    prefixedName pre name
  := by
  have hprefixed := h
  simp only [shouldPrefixLocalIdent, Bool.and_eq_true, decide_eq_true_eq, Bool.not_eq_true'] at hprefixed
  obtain ⟨⟨⟨hname, hpre⟩, -⟩, -⟩ := hprefixed
  refine ⟨hname, ?_⟩
  simp [rewritePart, h, prefixedName, hpre]

/-! ### Names of modules -/

/-- Files of the same name in different directories have the same prefix. -/
theorem modulePrefixFromPath_congr {path path' : Path} (h : pathBasename path = pathBasename path') :
  modulePrefixFromPath path = modulePrefixFromPath path'
  := by
  have hbase : moduleBase path = moduleBase path' := by simp only [moduleBase, h]
  rw [modulePrefixFromPath, modulePrefixFromPath, moduleNameFromPath, moduleNameFromPath, hbase]

section

variable (fs : FileSystem)

/-- The names a module declares at its top. -/
def moduleExports (path : Path) : List Text :=
  collectLocalModuleExportNames (moduleBody ((fs.read path).getD []))

/-- The names a local module declares once its text is rewritten. -/
def prefixedExports (path : Path) : List Text :=
  (moduleExports fs path).map (prefixedName (modulePrefixFromPath path))

/-- The names of a local module behind its prefix. -/
def ownNames (path : Path) : List Text :=
  (moduleExports fs path).map (ownName (modulePrefixFromPath path))

/-- The names the root declares. -/
def rootNames (root : Path) : List Text := collectLocalModuleExportNames (moduleText fs root false)

/-- A local module that is imported, directly or through others. -/
structure LocalModule (root path : Path) : Prop where
  imported : (importGraph fs).Reaches root path
  ne_root : path ≠ root
  notNative : isNativeImportPath path = false

/-- No name of a module is a name of another module or of the root. -/
structure ModulesApart (root : Path) : Prop where
  modules : ∀ p q, LocalModule fs root p → LocalModule fs root q → p ≠ q →
    (prefixedExports fs p).Disjoint (prefixedExports fs q)
  root : ∀ p, LocalModule fs root p → (prefixedExports fs p).Disjoint (rootNames fs root)

/-- Modules of one name share no names, a module whose name goes on where that of another one
ends shares none with it, and the root declares no name that starts as one of a module. -/
structure NamesApart (root : Path) : Prop where
  sameName : ∀ p q, LocalModule fs root p → LocalModule fs root q → p ≠ q →
    moduleNameFromPath p = moduleNameFromPath q → (ownNames fs p).Disjoint (ownNames fs q)
  longerName : ∀ p q, LocalModule fs root p → LocalModule fs root q → ∀ rest,
    moduleNameFromPath q = moduleNameFromPath p ++ '_' :: rest →
      ∀ name ∈ ownNames fs q, rest ++ '_' :: name ∉ ownNames fs p
  root : ∀ p, LocalModule fs root p → ∀ name ∈ ownNames fs p,
    modulePrefixFromPath p ++ name ∉ rootNames fs root

theorem mem_prefixedExports {path : Path} {name : Text} :
  name ∈ prefixedExports fs path ↔ ∃ own ∈ ownNames fs path, name = modulePrefixFromPath path ++ own
  := by
  simp only [prefixedExports, ownNames, List.mem_map, prefixedName_eq]
  constructor
  · rintro ⟨e, he, rfl⟩
    exact ⟨_, ⟨e, he, rfl⟩, rfl⟩
  · rintro ⟨_, ⟨e, he, rfl⟩, rfl⟩
    exact ⟨e, he, rfl⟩

end

/-- Equal names behind prefixes that are not the same have one prefix that goes on. -/
theorem longer_of_append_eq {a b x y : Text} (h : a ++ '_' :: x = b ++ '_' :: y) :
  a = b ∧ x = y ∨ (∃ rest, b = a ++ '_' :: rest ∧ x = rest ++ '_' :: y) ∨
    ∃ rest, a = b ++ '_' :: rest ∧ y = rest ++ '_' :: x
  := by
  rcases List.append_eq_append_iff.mp h with ⟨d, rfl, hx⟩ | ⟨d, rfl, hy⟩
  · cases d with
    | nil => simpa using hx
    | cons c rest =>
      rw [List.cons_append] at hx
      obtain ⟨rfl, rfl⟩ := List.cons.inj hx
      exact .inr (.inl ⟨rest, rfl, rfl⟩)
  · cases d with
    | nil =>
      left
      simpa using hy.symm
    | cons c rest =>
      rw [List.cons_append] at hy
      obtain ⟨rfl, rfl⟩ := List.cons.inj hy
      exact .inr (.inr ⟨rest, rfl, rfl⟩)

variable {fs : FileSystem}

theorem modulePrefixFromPath_append (path : Path) (name : Text) :
  modulePrefixFromPath path ++ name = moduleNameFromPath path ++ '_' :: name
  := by
  rw [modulePrefixFromPath, List.append_assoc]
  rfl

theorem ModulesApart.namesApart {root : Path} (h : ModulesApart fs root) : NamesApart fs root := by
  constructor
  · intro p q hp hq hne hname own hown hown'
    apply h.modules p q hp hq hne ((mem_prefixedExports fs).mpr ⟨own, hown, rfl⟩)
    apply (mem_prefixedExports fs).mpr ⟨own, hown', _⟩
    rw [modulePrefixFromPath_append, modulePrefixFromPath_append, hname]
  · intro p q hp hq rest hname own hown hown'
    have hne : p ≠ q := by
      rintro rfl
      have hlength := congrArg List.length hname
      rw [List.length_append, List.length_cons] at hlength
      omega
    apply h.modules p q hp hq hne ((mem_prefixedExports fs).mpr ⟨_, hown', rfl⟩)
    apply (mem_prefixedExports fs).mpr ⟨own, hown, _⟩
    rw [modulePrefixFromPath_append, modulePrefixFromPath_append, hname, List.append_assoc,
      List.cons_append]
  · intro p hp own hown hroot
    exact h.root p hp ((mem_prefixedExports fs).mpr ⟨own, hown, rfl⟩) hroot

theorem NamesApart.modulesApart {root : Path} (h : NamesApart fs root) : ModulesApart fs root := by
  constructor
  · intro p q hp hq hne name hname hname'
    obtain ⟨x, hx, rfl⟩ := (mem_prefixedExports fs).mp hname
    obtain ⟨y, hy, heq⟩ := (mem_prefixedExports fs).mp hname'
    rw [modulePrefixFromPath_append, modulePrefixFromPath_append] at heq
    rcases longer_of_append_eq heq with ⟨hsame, rfl⟩ | ⟨rest, hlong, rfl⟩ | ⟨rest, hlong, rfl⟩
    · exact h.sameName p q hp hq hne hsame hx hy
    · exact h.longerName p q hp hq rest hlong y hy hx
    · exact h.longerName q p hq hp rest hlong x hx hy
  · intro p hp name hname hroot
    obtain ⟨own, hown, rfl⟩ := (mem_prefixedExports fs).mp hname
    exact h.root p hp own hown hroot

/-- The modules of a program are kept apart if and only if their own names are where the
prefixes do not tell them apart. -/
theorem modulesApart_iff (root : Path) : ModulesApart fs root ↔ NamesApart fs root := by
  constructor
  · exact ModulesApart.namesApart
  · exact NamesApart.modulesApart

/-- A root that imports two files of one name that declare the same function. -/
def twoUtils : FileSystem := .ofTable [
  ("/main.cast".toList, "use /a/util\nuse /b/util\nFN main() -> NUL = (\n)\n".toList),
  ("/a/util.cast".toList, "FN f() -> INT = (\n  ret 1\n)\n".toList),
  ("/b/util.cast".toList, "FN f() -> INT = (\n  ret 2\n)\n".toList)]

/-- Two files of one name in different directories declare the same name. -/
theorem not_modulesApart :
  ¬∀ (fs : FileSystem) (modules : ℕ) (sourcePath : Path) (text : Text),
    expandImports fs modules sourcePath = .ok text → ModulesApart fs (fs.canonical sourcePath)
  := by
  intro h
  have hexpands : (expandImports twoUtils 3 "/main.cast".toList).isOk = true := rfl
  obtain ⟨text, htext⟩ : ∃ text, expandImports twoUtils 3 "/main.cast".toList = .ok text := by
    cases hresult : expandImports twoUtils 3 "/main.cast".toList with
    | ok text => exact ⟨text, rfl⟩
    | error stop => rw [hresult] at hexpands; cases hexpands
  have happart := h twoUtils 3 "/main.cast".toList text htext
  have hsteps : (importGraph twoUtils).steps "/main.cast".toList =
    [.ok "/a/util.cast".toList, .ok "/b/util.cast".toList] := rfl
  have hlocal : ∀ path, .ok path ∈ (importGraph twoUtils).steps "/main.cast".toList →
      path ≠ "/main.cast".toList → isNativeImportPath path = false →
      LocalModule twoUtils "/main.cast".toList path := by
    intro path hstep hne hnative
    exact ⟨Relation.ReflTransGen.single hstep, hne, hnative⟩
  have hdisjoint := happart.modules "/a/util.cast".toList "/b/util.cast".toList
    (hlocal _ (by rw [hsteps]; simp) (by decide) (by decide))
    (hlocal _ (by rw [hsteps]; simp) (by decide) (by decide)) (by decide)
  have hleft : prefixedExports twoUtils "/a/util.cast".toList = ["Util_f".toList] := rfl
  have hright : prefixedExports twoUtils "/b/util.cast".toList = ["Util_f".toList] := rfl
  rw [hleft, hright] at hdisjoint
  exact hdisjoint List.mem_cons_self List.mem_cons_self

/-- The modules of an expanded program whose names all differ, are letters and digits, and
start no name of the root are kept apart. -/
theorem modulesApart_of_names {root : Path}
    (hname : ∀ p q, LocalModule fs root p → LocalModule fs root q → p ≠ q →
      moduleNameFromPath p ≠ moduleNameFromPath q)
    (hplain : ∀ p, LocalModule fs root p → '_' ∉ moduleNameFromPath p)
    (hroot : ∀ p, LocalModule fs root p → ∀ name ∈ rootNames fs root,
      ¬ modulePrefixFromPath p <+: name) :
  ModulesApart fs root
  := by
  apply NamesApart.modulesApart
  constructor
  · intro p q hp hq hne heq
    exact absurd heq (hname p q hp hq hne)
  · intro p q hp hq rest hlong
    exact absurd (by simp [hlong]) (hplain q hq)
  · intro p hp own _ hmem
    exact hroot p hp _ hmem (List.prefix_append _ _)

end Caster.Driver
